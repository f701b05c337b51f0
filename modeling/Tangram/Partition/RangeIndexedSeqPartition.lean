import Tangram.Lib.Run
import Tangram.Lib.Words
import Tangram.Partition.IndexedSeqPartition

/-!
# Partitions by ranges of keys

`RangeKeyToPartMapper` (`core/index/range_key_to_part_mapper.hpp`) and
`RangeIndexedSeqPartition` (`core/partition/range_indexed_seq_partition.hpp`).  The
mapper divides a key by the size of the first range; all ranges but the last must
have this size.  A longer last range passes the constructor, and its keys are sent
to parts that do not exist.

Keys are integers; a negative one is in no range.  Sizes are 64 bit words, the
interval and the counters of both constructors are `int`s: a counter that runs over,
or a value that does not fit one, is a check of its own here.

    Served m key ↔ the range of the key is below 2^31 ∧ key < parts * interval   (range_served_iff)
-/

namespace Tangram

open StepRun Words List

variable {O : Type} {r : Range}

/-- `third_party::Range`. -/
structure Range where
  begin_ : Nat
  end_ : Nat
  begin_lt : begin_ < 2 ^ 64
  end_lt : end_ < 2 ^ 64

namespace Range

def size (r : Range) : Nat := (r.end_ + 2 ^ 64 - r.begin_) % 2 ^ 64

def Has (r : Range) (key : Nat) : Prop := r.begin_ ≤ key ∧ key < r.end_

instance (r : Range) (key : Nat) : Decidable (r.Has key) := by
  unfold Has; infer_instance

theorem size_eq (h : r.begin_ < r.end_) : r.size = r.end_ - r.begin_ := by
  have := r.end_lt
  unfold size
  omega

end Range

/-- The integer types that differ when a key is divided by an `int`; smaller ones count as `int`. -/
inductive KeyT
  | int | uint32 | int64 | uint64
deriving DecidableEq, Repr

/-- The divisor in the common type. -/
def KeyT.divisor : KeyT → Int → Int
  | .int, i | .int64, i => i
  | .uint32, i => i % 2 ^ 32
  | .uint64, i => i % 2 ^ 64

theorem KeyT.divisor_of_lt (k : KeyT) {i : Nat} (h : i < 2 ^ 31) : k.divisor i = i := by
  cases k <;> simp only [divisor] <;> omega

inductive RangeCheck
  | noRange | rangeSize | rangeCounter
  | divide | get | getRange
  | partBegin | partCounter | findBegin | findEnd | findIndex
deriving DecidableEq, Repr

/-! ## The mapper -/

structure RangeKeyToPartMapper where
  ranges : List Range
  interval : Int

namespace RangeKeyToPartMapper

/-- The constructor. -/
def make (ranges : List Range) : Except RangeCheck RangeKeyToPartMapper :=
  match ranges with
  | [] => .error .noRange
  | r :: _ => do
    let interval := toInt r.size
    check .rangeCounter (ranges.length ≤ 2 ^ 31)
    check .rangeSize (∀ r ∈ ranges.dropLast, r.size = toSize interval)
    return ⟨ranges, interval⟩

def getNumPart (m : RangeKeyToPartMapper) : Nat := m.ranges.length

/-- The part is compared with the last key, not with the number of parts. -/
def get (m : RangeKeyToPartMapper) (k : KeyT) (key : Nat) : Except RangeCheck Nat := do
  check .divide (k.divisor m.interval ≠ 0)
  let ret := toSize ((key : Int).tdiv (k.divisor m.interval))
  check .get (ret < (m.ranges.getLast?.map Range.end_).getD 0)
  return ret

def getRange (m : RangeKeyToPartMapper) (partId : Int) : Except RangeCheck Range :=
  match m.ranges[toSize partId]? with
  | none => .error .getRange
  | some r => .ok r

end RangeKeyToPartMapper

/-! ## The partition -/

structure RangeIndexedSeqPartition (O : Type) where
  storage : List O
  range : Range

namespace RangeIndexedSeqPartition

/-- The loop of the constructor from key `i` on; there are `fuel` keys at most. -/
def fill (T : ObjType Nat O) (end_ : Nat) : Nat → Nat → Except RangeCheck (List O)
  | 0, _ => .ok []
  | fuel + 1, i =>
    if i < end_ then do
      check .partCounter (i + 1 < 2 ^ 31)
      let rest ← fill T end_ fuel (i + 1)
      return T.create i :: rest
    else .ok []

/-- The constructor. -/
def make (T : ObjType Nat O) (r : Range) : Except RangeCheck (RangeIndexedSeqPartition O) := do
  check .partBegin (r.begin_ < 2 ^ 31)
  let storage ← fill T r.end_ r.end_ r.begin_
  return ⟨storage, r⟩

def find (p : RangeIndexedSeqPartition O) (key : Nat) : Except RangeCheck O := do
  check .findBegin (p.range.begin_ ≤ key)
  check .findEnd (key < p.range.end_)
  match p.storage[key - p.range.begin_]? with
  | none => .error .findIndex
  | some obj => .ok obj

variable (T : ObjType Nat O)

theorem fill_ok {end_ : Nat} (hend : end_ < 2 ^ 31) {fuel i : Nat} (hfuel : end_ ≤ i + fuel) :
    fill T end_ fuel i = .ok ((List.range' i (end_ - i)).map T.create) := by
  induction fuel generalizing i with
  | zero =>
    rw [show end_ - i = 0 by omega]
    rfl
  | succ fuel ih =>
    unfold fill
    split
    · next hi =>
      have hc : i + 1 < 2 ^ 31 := by omega
      rw [check_pos hc, ih (by omega), show end_ - i = end_ - (i + 1) + 1 by omega,
        List.range'_succ]
      rfl
    · next hi =>
      rw [show end_ - i = 0 by omega]
      rfl

/-- The counter runs over. -/
theorem fill_error {end_ : Nat} (hend : 2 ^ 31 ≤ end_) {fuel i : Nat} (hi : i < 2 ^ 31)
    (hfuel : end_ ≤ i + fuel) : ∃ e, fill T end_ fuel i = .error e := by
  induction fuel generalizing i with
  | zero => omega
  | succ fuel ih =>
    unfold fill
    rw [if_pos (by omega)]
    by_cases hc : i + 1 < 2 ^ 31
    · obtain ⟨e, he⟩ := ih hc (by omega)
      rw [check_pos hc, he]
      exact ⟨e, rfl⟩
    · refine ⟨.partCounter, ?_⟩
      rw [check, if_neg hc]
      rfl

theorem end_lt_of_make {T : ObjType Nat O} {p : RangeIndexedSeqPartition O} (h : make T r = .ok p) :
    r.end_ < 2 ^ 31 := by
  unfold make at h
  obtain ⟨_, hb, h⟩ := bind_eq_ok.mp h
  obtain ⟨storage, hs, -⟩ := bind_eq_ok.mp h
  by_contra hend
  obtain ⟨e, he⟩ := fill_error T (by omega) (check_eq_ok.mp hb) (Nat.le_add_left r.end_ r.begin_)
  cases he.symm.trans hs

/-- Every key of the range has its object. -/
theorem find_make (hend : r.end_ < 2 ^ 31) {key : Nat} (hkey : r.Has key) :
    ∃ p, make T r = .ok p ∧ p.find key = .ok (T.create key) := by
  obtain ⟨hb, he⟩ := hkey
  have hbegin : r.begin_ < 2 ^ 31 := by omega
  refine ⟨⟨(List.range' r.begin_ (r.end_ - r.begin_)).map T.create, r⟩, ?_, ?_⟩
  · unfold make
    rw [check_pos hbegin, fill_ok T hend (Nat.le_add_left _ _)]
    rfl
  · have hget : ((List.range' r.begin_ (r.end_ - r.begin_)).map T.create)[key - r.begin_]? =
        some (T.create key) := by
      rw [getElem?_map, getElem?_range' (by omega)]
      show some (T.create (r.begin_ + 1 * (key - r.begin_))) = _
      rw [show r.begin_ + 1 * (key - r.begin_) = key by omega]
    unfold find
    rw [check_pos (show _ from hb), check_pos (show _ from he)]
    simp only [hget]
    rfl

end RangeIndexedSeqPartition

/-! ## Contiguous ranges -/

/-- The ranges follow each other from `start` on, and none is empty. -/
def Contiguous : Nat → List Range → Prop
  | _, [] => True
  | start, r :: rs => r.begin_ = start ∧ r.begin_ < r.end_ ∧ Contiguous r.end_ rs

instance Contiguous.decidable : (start : Nat) → (rs : List Range) → Decidable (Contiguous start rs)
  | _, [] => .isTrue trivial
  | start, r :: rs =>
    have := Contiguous.decidable r.end_ rs
    inferInstanceAs (Decidable (r.begin_ = start ∧ r.begin_ < r.end_ ∧ Contiguous r.end_ rs))

namespace Contiguous

variable {start size : Nat} {rs : List Range}

theorem begin_le (h : Contiguous start rs) (hr : r ∈ rs) :
    start ≤ r.begin_ ∧ r.begin_ < r.end_ := by
  induction rs generalizing start with
  | nil => exact absurd hr not_mem_nil
  | cons x rs ih =>
    obtain ⟨hx, hlt, hrest⟩ := h
    rcases mem_cons.mp hr with rfl | hr
    · exact ⟨Nat.le_of_eq hx.symm, hlt⟩
    · have := ih hrest hr
      omega

/-- A later range begins where an earlier one has ended, or after it. -/
theorem end_le (h : Contiguous start rs) {i j : Nat} (hi : i < j) (hj : j < rs.length) :
    rs[i].end_ ≤ rs[j].begin_ := by
  induction rs generalizing start i j with
  | nil => exact absurd hj (Nat.not_lt_zero _)
  | cons x rs ih =>
    obtain ⟨-, -, hrest⟩ := h
    cases j with
    | zero => omega
    | succ j =>
      have hj : j < rs.length := by simpa using hj
      cases i with
      | zero => exact (begin_le hrest (getElem_mem hj)).1
      | succ i => exact ih hrest (by omega) hj

/-- Where the ranges begin, if all but the last have one size. -/
theorem begin_eq (h : Contiguous start rs) (hsize : ∀ r ∈ rs.dropLast, r.size = size) {i : Nat}
    (hi : i < rs.length) : rs[i].begin_ = start + i * size := by
  induction rs generalizing start i with
  | nil => exact absurd hi (Nat.not_lt_zero _)
  | cons x rs ih =>
    obtain ⟨hx, hlt, hrest⟩ := h
    cases i with
    | zero => simpa using hx
    | succ i =>
      have hi : i < rs.length := by simpa using hi
      have hne : rs ≠ [] := ne_nil_of_length_pos (by omega)
      have hdrop : (x :: rs).dropLast = x :: rs.dropLast := dropLast_cons_of_ne_nil hne
      rw [hdrop] at hsize
      have hxs := hsize x mem_cons_self
      rw [Range.size_eq hlt] at hxs
      rw [getElem_cons_succ, ih hrest (fun r hr => hsize r (mem_cons_of_mem _ hr)) hi,
        Nat.succ_mul]
      omega

theorem eq_of_has (h : Contiguous start rs) {i j key : Nat} (hi : i < rs.length)
    (hj : j < rs.length) (hik : rs[i].Has key) (hjk : rs[j].Has key) : i = j := by
  unfold Range.Has at hik hjk
  rcases Nat.lt_trichotomy i j with hlt | heq | hlt
  · have := h.end_le hlt hj
    omega
  · exact heq
  · have := h.end_le hlt hi
    omega

end Contiguous

/-! ## Keys and their parts -/

open RangeKeyToPartMapper in
/-- The key goes to a part that there is, whose range has it, and whose partition finds the
object with this key. -/
def Served (T : ObjType Nat O) (k : KeyT) (m : RangeKeyToPartMapper) (key : Nat) : Prop :=
  ∃ part r p obj, m.get k key = .ok part ∧ part < m.getNumPart ∧
    m.getRange (toInt part) = .ok r ∧ r.Has key ∧
    RangeIndexedSeqPartition.make T r = .ok p ∧ p.find key = .ok obj ∧ T.key obj = key

namespace RangeKeyToPartMapper

variable {ranges : List Range} {m : RangeKeyToPartMapper} {key : Nat}

theorem make_cases (h : make ranges = .ok m) :
    ∃ r rs, ranges = r :: rs ∧ m.ranges = ranges ∧ m.interval = toInt r.size ∧
      ranges.length ≤ 2 ^ 31 ∧ ∀ r ∈ ranges.dropLast, r.size = toSize m.interval := by
  match ranges, h with
  | [], h => cases h
  | r :: rs, h =>
    unfold make at h
    obtain ⟨_, hlen, h⟩ := bind_eq_ok.mp h
    obtain ⟨_, hsize, h⟩ := bind_eq_ok.mp h
    rw [check_eq_ok] at hlen hsize
    obtain ⟨hranges, hint⟩ := RangeKeyToPartMapper.mk.inj (Except.ok.inj h)
    rw [← hranges, ← hint]
    exact ⟨r, rs, rfl, rfl, rfl, hlen, hsize⟩

/-- If the range of a key is below `2 ^ 31`, the interval is the size of the first range. -/
theorem make_interval (h : make ranges = .ok m) (hc : Contiguous 0 ranges) (hr : r ∈ ranges)
    (hend : r.end_ < 2 ^ 31) :
    ∃ size : Nat, 0 < size ∧ size < 2 ^ 31 ∧ m.interval = size ∧
      ∀ r ∈ ranges.dropLast, r.size = size := by
  obtain ⟨r₀, rs, rfl, -, hint, -, hsize⟩ := make_cases h
  obtain ⟨h₀, hlt, hrest⟩ := hc
  have hsz := Range.size_eq hlt
  have hle : r₀.end_ ≤ r.end_ := by
    rcases mem_cons.mp hr with rfl | hr
    · exact Nat.le_refl _
    · have := hrest.begin_le hr
      omega
  have hsmall : r₀.size < 2 ^ 31 := by omega
  rw [toInt_of_lt hsmall] at hint
  refine ⟨r₀.size, by omega, hsmall, hint, fun r hr => ?_⟩
  rw [hsize r hr, hint, toSize_ofNat (by omega)]

/-- What `Get` computes with an interval that is what it should be. -/
theorem get_eq (k : KeyT) {size : Nat} (hpos : 0 < size) (hsize : size < 2 ^ 31)
    (hint : m.interval = size) (hkey : key < 2 ^ 64) :
    m.get k key = (do
      check .get (key / size < (m.ranges.getLast?.map Range.end_).getD 0)
      return key / size) := by
  have hdiv : k.divisor m.interval = size := by
    rw [hint, k.divisor_of_lt hsize]
  have hne : k.divisor m.interval ≠ 0 := by omega
  have hret : toSize ((key : Int).tdiv size) = key / size := by
    rw [← Int.ofNat_tdiv]
    exact toSize_ofNat (Nat.lt_of_le_of_lt (Nat.div_le_self _ _) hkey)
  unfold get
  rw [check_pos hne, hdiv, hret]
  rfl

end RangeKeyToPartMapper

open RangeKeyToPartMapper RangeIndexedSeqPartition in
/-- **A key of contiguous ranges is served** exactly if it is below the number of parts times the
interval, where the `int`s of the partition reach its range. -/
theorem range_served_iff (T : ObjType Nat O) (k : KeyT) (ranges : List Range)
    (m : RangeKeyToPartMapper) (hm : RangeKeyToPartMapper.make ranges = .ok m)
    (hc : Contiguous 0 ranges) (r : Range) (hr : r ∈ ranges) (key : Nat) (hkey : r.Has key) :
    Served T k m key ↔ r.end_ < 2 ^ 31 ∧ (key : Int) < m.getNumPart * m.interval := by
  obtain ⟨r₀, rs, -, hranges, -, hlen, -⟩ := make_cases hm
  obtain ⟨i, hi, rfl⟩ := mem_iff_getElem.mp hr
  have hnum : m.getNumPart = ranges.length := by rw [getNumPart, hranges]
  have hkey64 : key < 2 ^ 64 := Nat.lt_trans hkey.2 ranges[i].end_lt
  constructor
  · rintro ⟨part, r', p, obj, hget, hpart, hrange, hhas, hmake, -, -⟩
    -- the range that serves the key is the one that has it
    have hpart' : part < ranges.length := hnum ▸ hpart
    rw [toInt_of_lt (by omega)] at hrange
    obtain rfl : r' = ranges[part] := by
      unfold getRange at hrange
      rw [toSize_ofNat (by omega), hranges, getElem?_eq_getElem hpart'] at hrange
      exact (Except.ok.inj hrange).symm
    obtain rfl := hc.eq_of_has hi hpart' hkey hhas
    have hend := end_lt_of_make hmake
    obtain ⟨size, hpos, hsmall, hint, -⟩ := make_interval hm hc hr hend
    rw [get_eq k hpos hsmall hint hkey64] at hget
    obtain ⟨_, -, hget⟩ := bind_eq_ok.mp hget
    have hdiv : key / size = i := Except.ok.inj hget
    have hlt : key < ranges.length * size := (Nat.div_lt_iff_lt_mul hpos).mp (hdiv ▸ hpart')
    refine ⟨hend, ?_⟩
    rw [hnum, hint]
    exact_mod_cast hlt
  · rintro ⟨hend, hlt⟩
    obtain ⟨size, hpos, hsmall, hint, hsize⟩ := make_interval hm hc hr hend
    rw [hnum, hint] at hlt
    have hlt : key < ranges.length * size := by exact_mod_cast hlt
    have hbegin := hc.begin_eq hsize hi
    rw [Nat.zero_add] at hbegin
    have hge : i * size ≤ key := hbegin ▸ hkey.1
    -- the quotient is the place of the range
    have hbelow : key < (i + 1) * size := by
      by_cases hlast : i + 1 < ranges.length
      · have hnext := hc.begin_eq hsize hlast
        have hle : ranges[i].end_ ≤ ranges[i + 1].begin_ := hc.end_le (by omega) hlast
        have := hkey.2
        omega
      · rwa [show i + 1 = ranges.length by omega]
    have hdiv : key / size = i := by
      apply Nat.div_eq_of_lt_le
      · exact hge
      · exact hbelow
    have hne : ranges ≠ [] := ne_nil_of_mem hr
    have hmax : key < (ranges.getLast?.map Range.end_).getD 0 := by
      rw [getLast?_eq_some_getLast hne, getLast_eq_getElem]
      show key < ranges[ranges.length - 1].end_
      by_cases hlast : i = ranges.length - 1
      · subst hlast
        exact hkey.2
      · have hle := hc.end_le (show i < ranges.length - 1 by omega) (by omega)
        have hlt' := (hc.begin_le (getElem_mem (show ranges.length - 1 < ranges.length by omega))).2
        have := hkey.2
        omega
    have hile : i ≤ key := Nat.le_trans (Nat.le_mul_of_pos_right i hpos) hge
    obtain ⟨p, hp, hfind⟩ := find_make T hend hkey
    refine ⟨i, ranges[i], p, T.create key, ?_, by omega, ?_, hkey, hp, hfind, T.key_create key⟩
    · rw [get_eq k hpos hsmall hint hkey64, hdiv, hranges, check_pos (Nat.lt_of_le_of_lt hile hmax)]
      rfl
    · unfold getRange
      rw [toInt_of_lt (by omega), toSize_ofNat (by omega), hranges, getElem?_eq_getElem hi]

/-- Objects that are their key. -/
def plainKeys : ObjType Nat Nat := ⟨id, id, fun _ => rfl⟩

/-- A last range that is shorter, as programs build it. -/
def shortLast : List Range :=
  [⟨0, 4, by decide, by decide⟩, ⟨4, 8, by decide, by decide⟩, ⟨8, 10, by decide, by decide⟩]

theorem range_served_shortLast : Served plainKeys .int ⟨shortLast, 4⟩ 9 := by
  have hm : RangeKeyToPartMapper.make shortLast = .ok ⟨shortLast, 4⟩ := by
    with_unfolding_all rfl
  exact (range_served_iff plainKeys .int shortLast ⟨shortLast, 4⟩ hm (by decide)
    ⟨8, 10, by decide, by decide⟩ (by simp [shortLast]) 9 (by decide)).mpr (by decide)

/-- A last range that is longer. -/
def longLast : List Range := [⟨0, 2, by decide, by decide⟩, ⟨2, 10, by decide, by decide⟩]

/-- The constructor accepts it, and the last of its keys goes to part 4 of 2. -/
theorem longLast_get : ∃ m, RangeKeyToPartMapper.make longLast = .ok m ∧ Contiguous 0 longLast ∧
    (∃ r ∈ longLast, r.Has 9) ∧ m.getNumPart = 2 ∧ m.get .int 9 = .ok 4 ∧
    m.getRange 4 = .error .getRange :=
  ⟨⟨longLast, 2⟩, by with_unfolding_all rfl, by decide, by decide, rfl,
    by with_unfolding_all rfl, by with_unfolding_all rfl⟩

end Tangram
