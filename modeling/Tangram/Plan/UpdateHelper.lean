import Tangram.Base.Serialization
import Tangram.Partition.IndexedSeqPartition

/-!
# The two ways to apply a stream

A join of another node arrives as bytes and is applied by `GetJoinPartFunc`, which
reads pair after pair into the same two variables until the bin is empty; a join of
the same node is applied by `GetJoinPartFunc2`, which goes through the pairs
(`core/plan/update_helper.hpp`).  They agree on a buffer if and only if every pair
but the last leaves the two variables as they can be read into again, and the last
pair writes at least one byte (`Readable`).
-/

namespace Tangram

open StepRun BinType List IndexedSeqPartition SArrayBinStream

variable {K M O P ε : Type}

/-! ## Model -/

/-- `Indexable<T>`: `FindOrCreate`, and a function applied to the object it points to. -/
structure Indexable (K O P ε : Type) where
  findOrCreate : P → K → (O → O) → Except ε P

/-- What ends a join early: a bin, the partition, or more turns than were allowed. -/
inductive JoinStop (ε : Type)
  | bin (c : BinCheck)
  | part (e : ε)
  | turns

section Model

variable (kt : BinType K) (mt : BinType M) (ix : Indexable K O P ε) (update : O → M → O)

/-- `MapOutputStream::SerializeOneBuffer`. -/
def serializeOneBuffer (buffer : List (K × M)) : Except BinCheck SArrayBinStream :=
  buffer.foldlM (fun bin p => do mt.out (← kt.out bin p.1) p.2) .empty

/-- `while (bin.Size())`, for at most so many turns.  `key` and `msg` are declared before the
loop; `moved` is what `std::move` leaves of a message. -/
def getJoinPartFunc (moved : M → M) :
    Nat → P → K → M → SArrayBinStream → Except (JoinStop ε) (P × SArrayBinStream)
  | 0, p, _, _, bin => if bin.size = 0 then .ok (p, bin) else .error .turns
  | n + 1, p, key, msg, bin =>
    if bin.size = 0 then .ok (p, bin)
    else do
      let (key, bin) ← (kt.inn bin key).mapError .bin
      let (msg, bin) ← (mt.inn bin msg).mapError .bin
      let p ← (ix.findOrCreate p key (update · msg)).mapError .part
      getJoinPartFunc moved n p key (moved msg) bin

def getJoinPartFunc2 (p : P) (buffer : List (K × M)) : Except ε P :=
  buffer.foldlM (fun p kv => ix.findOrCreate p kv.1 (update · kv.2)) p

end Model

/-- The partitions of `placeholder`. -/
def IndexedSeqPartition.indexable [LinearOrder K] (T : ObjType K O) :
    Indexable K O (IndexedSeqPartition K O) Empty where
  findOrCreate p k f :=
    let (i, p) := findOrCreate T p k
    .ok { p with storage := p.storage.modify i f }

theorem getJoinPartFunc2_indexed [LinearOrder K] (T : ObjType K O) (update : O → M → O)
    (p : IndexedSeqPartition K O) (buffer : List (K × M)) :
    getJoinPartFunc2 (IndexedSeqPartition.indexable T) update p buffer =
      .ok (p.joinStream T update buffer) := by
  induction buffer generalizing p with
  | nil => rfl
  | cons x buffer ih => exact ih (p.joinOne T update x)

/-! ## One pair -/

/-- The bytes of a buffer. -/
def pairBytes (kt : BinType K) (mt : BinType M) (buffer : List (K × M)) : List UInt8 :=
  buffer.flatMap fun x => kt.bytes x.1 ++ mt.bytes x.2

/-- A buffer that the streams can take: its values are values of the types, and it has less than
`2 ^ 31` bytes. -/
structure Sendable (kt : BinType K) (mt : BinType M) (buffer : List (K × M)) : Prop where
  valid : ∀ x ∈ buffer, (kt.valid x.1 ∧ kt.size x.1 < 2 ^ 31) ∧ mt.valid x.2 ∧ mt.size x.2 < 2 ^ 31
  length : (pairBytes kt mt buffer).length < 2 ^ 31

/-- Types for the keys and messages of a plan.  Keys are compared by `==`; `operator>>` into a
value that is not fresh stops; and whether a message that was moved from is fresh does not depend
on which of two equal ones it was. -/
structure PairTypes (kt : BinType K) (mt : BinType M) (moved : M → M) : Prop where
  key : RoundTrip kt
  msg : RoundTrip mt
  strict : Strict kt
  sharpKey : Sharp kt
  sharpMsg : Sharp mt
  moved : ∀ m m', mt.eqv m m' → (mt.fresh (moved m) ↔ mt.fresh (moved m'))

variable {kt : BinType K} {mt : BinType M} {moved : M → M} {ix : Indexable K O P ε}
  {update : O → M → O} {buffer : List (K × M)} {bin : SArrayBinStream} {x : K × M} {key : K}
  {msg : M}

theorem serializeOneBuffer_ok (ht : PairTypes kt mt moved) (h : Sendable kt mt buffer) :
    serializeOneBuffer kt mt buffer = .ok (SArrayBinStream.empty.addBin (pairBytes kt mt buffer)) := by
  have hloop : ∀ (l : List (K × M)) (s : SArrayBinStream), (∀ x ∈ l, x ∈ buffer) →
      l.foldlM (fun bin p => do mt.out (← kt.out bin p.1) p.2) s =
        .ok (s.addBin (pairBytes kt mt l)) := by
    intro l
    induction l with
    | nil => exact fun s _ => congrArg Except.ok (addBin_nil s).symm
    | cons x l ih =>
      intro s hl
      obtain ⟨⟨hk, hks⟩, hm, hms⟩ := h.valid x (hl x mem_cons_self)
      rw [foldlM_cons, ht.key.write s x.1 hk hks]
      show (mt.out _ x.2 >>= _) = _
      rw [ht.msg.write _ x.2 hm hms]
      refine (ih _ fun y hy => hl y (mem_cons_of_mem _ hy)).trans ?_
      rw [addBin_addBin, addBin_addBin, pairBytes, pairBytes,
        flatMap_cons, append_assoc]
  exact hloop buffer .empty fun _ hx => hx

/-- **One turn.**  A pair that is read into fresh variables is applied as it was written. -/
theorem turn_eq (ix : Indexable K O P ε) (ht : PairTypes kt mt moved)
    (hu : ∀ o m m', mt.eqv m m' → update o m = update o m')
    (hx : (kt.valid x.1 ∧ kt.size x.1 < 2 ^ 31) ∧ mt.valid x.2 ∧ mt.size x.2 < 2 ^ 31)
    {rest : List UInt8} (hs : bin.buffer.length < 2 ^ 31)
    (hun : bin.unread = kt.bytes x.1 ++ mt.bytes x.2 ++ rest) (hne : bin.size ≠ 0)
    (hkey : kt.fresh key) (hmsg : mt.fresh msg) (n : Nat) (p : P) :
    ∃ m bin', mt.eqv x.2 m ∧ bin'.buffer.length < 2 ^ 31 ∧ bin'.unread = rest ∧
      getJoinPartFunc kt mt ix update moved (n + 1) p key msg bin =
        (ix.findOrCreate p x.1 (update · x.2)).mapError .part >>= fun p =>
          getJoinPartFunc kt mt ix update moved n p x.1 (moved m) bin' := by
  obtain ⟨⟨hkv, hks⟩, hmv, hms⟩ := hx
  rw [append_assoc] at hun
  obtain ⟨k', hk, hkeq⟩ := ht.key.read bin key x.1 _ hkv hks hkey hs hun
  cases ht.strict _ _ hkeq
  obtain ⟨m, hm, hmeq⟩ := ht.msg.read (bin.skip (kt.bytes x.1).length) msg x.2 rest hmv hms hmsg hs
    (unread_skip hun)
  refine ⟨m, (bin.skip (kt.bytes x.1).length).skip (mt.bytes x.2).length, hmeq, hs,
    unread_skip (unread_skip hun), ?_⟩
  have hupd : (update · m) = (update · x.2) := funext fun o => (hu o x.2 m hmeq).symm
  rw [getJoinPartFunc, if_neg hne, hk]
  show ((mt.inn _ msg).mapError JoinStop.bin >>= _) = _
  rw [hm]
  show ((ix.findOrCreate p x.1 (update · m)).mapError JoinStop.part >>= _) = _
  rw [hupd]

/-- A pair that is read into a variable that is not fresh stops the join. -/
theorem turn_stops (ix : Indexable K O P ε) (update : O → M → O) (ht : PairTypes kt mt moved)
    (hx : (kt.valid x.1 ∧ kt.size x.1 < 2 ^ 31) ∧ mt.valid x.2 ∧ mt.size x.2 < 2 ^ 31)
    {rest : List UInt8} (hs : bin.buffer.length < 2 ^ 31)
    (hun : bin.unread = kt.bytes x.1 ++ mt.bytes x.2 ++ rest) (hne : bin.size ≠ 0)
    (hstale : ¬ (kt.fresh key ∧ mt.fresh msg)) (n : Nat) (p : P) :
    ∃ e, getJoinPartFunc kt mt ix update moved n p key msg bin = .error e := by
  obtain ⟨⟨hkv, hks⟩, hmv, hms⟩ := hx
  rw [append_assoc] at hun
  cases n with
  | zero => exact ⟨.turns, if_neg hne⟩
  | succ n =>
    rw [getJoinPartFunc, if_neg hne]
    by_cases hkey : kt.fresh key
    · obtain ⟨k', hk, -⟩ := ht.key.read bin key x.1 _ hkv hks hkey hs hun
      obtain ⟨e, he⟩ := ht.sharpMsg (bin.skip (kt.bytes x.1).length) msg x.2 rest hmv hms
        (fun hmsg => hstale ⟨hkey, hmsg⟩) hs (unread_skip hun)
      refine ⟨.bin e, ?_⟩
      rw [hk]
      show ((mt.inn _ msg).mapError JoinStop.bin >>= _) = _
      rw [he]
      rfl
    · obtain ⟨e, he⟩ := ht.sharpKey bin key x.1 _ hkv hks hkey hs hun
      refine ⟨.bin e, ?_⟩
      rw [he]
      rfl

/-! ## A whole buffer -/

/-- What a pair leaves in the two variables can be read into. -/
def Reusable (kt : BinType K) (mt : BinType M) (moved : M → M) (x : K × M) : Prop :=
  kt.fresh x.1 ∧ mt.fresh (moved x.2)

/-- Every pair but the last leaves variables that can be read into, and the last one writes at
least one byte. -/
structure Readable (kt : BinType K) (mt : BinType M) (moved : M → M) (buffer : List (K × M)) :
    Prop where
  reusable : ∀ x ∈ buffer.dropLast, Reusable kt mt moved x
  last : ∀ x ∈ buffer.getLast?, kt.bytes x.1 ++ mt.bytes x.2 ≠ []

/-- The bytes are applied as the pairs are: with as many turns as there are pairs the loop ends,
with every byte read, in the partition that `GetJoinPartFunc2` makes; if the partition stops one,
it stops the other. -/
def JoinsAgree (kt : BinType K) (mt : BinType M) (moved : M → M) (buffer : List (K × M)) : Prop :=
  ∀ (O P ε : Type) (ix : Indexable K O P ε) (update : O → M → O),
    (∀ o m m', mt.eqv m m' → update o m = update o m') → ∀ (p : P) (n : Nat), buffer.length ≤ n →
      ∃ bin, serializeOneBuffer kt mt buffer = .ok bin ∧
        match getJoinPartFunc2 ix update p buffer with
        | .ok q => ∃ bin', getJoinPartFunc kt mt ix update moved n p kt.init mt.init bin =
            .ok (q, bin') ∧ bin'.size = 0
        | .error e => getJoinPartFunc kt mt ix update moved n p kt.init mt.init bin =
            .error (.part e)

theorem size_eq_zero_iff : bin.size = 0 ↔ bin.unread = [] := by
  rw [← length_unread, length_eq_zero_iff]

theorem getLast?_cons_of_ne_nil (h : buffer ≠ []) : (x :: buffer).getLast? = buffer.getLast? := by
  obtain ⟨y, l, rfl⟩ := exists_cons_of_ne_nil h
  exact getLast?_cons_cons

/-- If the last pair writes a byte, there is something to read before it. -/
theorem pairBytes_ne_nil (hne : buffer ≠ [])
    (hlast : ∀ x ∈ buffer.getLast?, kt.bytes x.1 ++ mt.bytes x.2 ≠ []) :
    pairBytes kt mt buffer ≠ [] := by
  have hx := getLast?_eq_getLast_of_ne_nil hne
  intro hnil
  have hzero := flatMap_eq_nil_iff.mp hnil _ (getLast_mem hne)
  exact hlast _ hx hzero

/-- The loop on the bytes of a readable buffer. -/
theorem getJoinPartFunc_eq (ht : PairTypes kt mt moved)
    (hu : ∀ o m m', mt.eqv m m' → update o m = update o m')
    (hvalid : ∀ x ∈ buffer,
      (kt.valid x.1 ∧ kt.size x.1 < 2 ^ 31) ∧ mt.valid x.2 ∧ mt.size x.2 < 2 ^ 31)
    (hread : Readable kt mt moved buffer) {bin : SArrayBinStream} (hs : bin.buffer.length < 2 ^ 31)
    (hun : bin.unread = pairBytes kt mt buffer) {key : K} {msg : M} (hkey : kt.fresh key)
    (hmsg : mt.fresh msg) (p : P) (n : Nat) (hn : buffer.length ≤ n) :
    match getJoinPartFunc2 ix update p buffer with
    | .ok q => ∃ bin', getJoinPartFunc kt mt ix update moved n p key msg bin = .ok (q, bin') ∧
        bin'.size = 0
    | .error e => getJoinPartFunc kt mt ix update moved n p key msg bin = .error (.part e) := by
  induction buffer generalizing bin key msg p n with
  | nil =>
    have hsize : bin.size = 0 := size_eq_zero_iff.mpr hun
    refine ⟨bin, ?_, hsize⟩
    cases n with
    | zero => exact if_pos hsize
    | succ n => exact if_pos hsize
  | cons x rest ih =>
    obtain ⟨n, rfl⟩ : ∃ k, n = k + 1 := ⟨n - 1, by rw [length_cons] at hn; omega⟩
    have hne : bin.size ≠ 0 := by
      rw [Ne, size_eq_zero_iff, hun]
      exact pairBytes_ne_nil (cons_ne_nil x rest) hread.last
    obtain ⟨m, bin', hm, hs', hun', hturn⟩ := turn_eq ix ht hu
      (hvalid x mem_cons_self) hs (hun.trans flatMap_cons) hne hkey hmsg n p
    rw [hturn]
    show match (ix.findOrCreate p x.1 (update · x.2) >>= fun p => getJoinPartFunc2 ix update p rest)
      with | .ok q => _ | .error e => _
    cases hp : ix.findOrCreate p x.1 (update · x.2) with
    | error e => rfl
    | ok p' =>
      show match getJoinPartFunc2 ix update p' rest with
        | .ok q => ∃ bin'', getJoinPartFunc kt mt ix update moved n p' x.1 (moved m) bin' =
            .ok (q, bin'') ∧ bin''.size = 0
        | .error e => getJoinPartFunc kt mt ix update moved n p' x.1 (moved m) bin' =
            .error (.part e)
      have hn' : rest.length ≤ n := by rw [length_cons] at hn; omega
      by_cases hrest : rest = []
      · -- nothing is left, whatever the variables hold
        subst hrest
        have hsize : bin'.size = 0 := size_eq_zero_iff.mpr hun'
        refine ⟨bin', ?_, hsize⟩
        cases n with
        | zero => exact if_pos hsize
        | succ n => exact if_pos hsize
      · have hdrop : (x :: rest).dropLast = x :: rest.dropLast := dropLast_cons_of_ne_nil hrest
        obtain ⟨hk, hmoved⟩ := hread.reusable x (by rw [hdrop]; exact mem_cons_self)
        refine ih (fun y hy => hvalid y (mem_cons_of_mem _ hy)) ⟨fun y hy => ?_, fun y hy => ?_⟩
          hs' hun' hk ((ht.moved _ _ hm).mp hmoved) p' n hn'
        · exact hread.reusable y (by rw [hdrop]; exact mem_cons_of_mem _ hy)
        · exact hread.last y (by rwa [getLast?_cons_of_ne_nil hrest])

/-! ## What goes wrong otherwise -/

/-- A loop that ends normally has read every pair into fresh variables. -/
theorem reusable_of_ok (ht : PairTypes kt mt moved)
    (hu : ∀ o m m', mt.eqv m m' → update o m = update o m')
    (hvalid : ∀ x ∈ buffer, (kt.valid x.1 ∧ kt.size x.1 < 2 ^ 31) ∧ mt.valid x.2 ∧ mt.size x.2 < 2 ^ 31)
    (hlast : ∀ x ∈ buffer.getLast?, kt.bytes x.1 ++ mt.bytes x.2 ≠ []) {bin : SArrayBinStream}
    (hs : bin.buffer.length < 2 ^ 31) (hun : bin.unread = pairBytes kt mt buffer)
    (hkey : kt.fresh key) (hmsg : mt.fresh msg) {p : P} {n : Nat} {r : P × SArrayBinStream}
    (hok : getJoinPartFunc kt mt ix update moved n p key msg bin = .ok r) :
    ∀ x ∈ buffer.dropLast, Reusable kt mt moved x := by
  induction buffer generalizing bin key msg p n with
  | nil => exact fun x hx => absurd hx not_mem_nil
  | cons x rest ih =>
    by_cases hrest : rest = []
    · subst hrest
      exact fun y hy => absurd hy not_mem_nil
    rw [dropLast_cons_of_ne_nil hrest]
    rw [getLast?_cons_of_ne_nil hrest] at hlast
    have hne : bin.size ≠ 0 := by
      rw [Ne, size_eq_zero_iff, hun]
      intro hnil
      exact pairBytes_ne_nil hrest hlast (append_eq_nil_iff.mp hnil).2
    cases n with
    | zero =>
      rw [getJoinPartFunc, if_neg hne] at hok
      cases hok
    | succ n =>
      obtain ⟨m, bin', hm, hs', hun', hturn⟩ := turn_eq ix ht hu
        (hvalid x mem_cons_self) hs (hun.trans flatMap_cons) hne hkey hmsg n p
      rw [hturn] at hok
      obtain ⟨p', -, hok⟩ := bind_eq_ok.mp hok
      have hvalid' : ∀ y ∈ rest, _ := fun y hy => hvalid y (mem_cons_of_mem _ hy)
      have hfresh : kt.fresh x.1 ∧ mt.fresh (moved m) := by
        -- the next pair is read into what this one left
        by_contra hstale
        obtain ⟨y, l, rfl⟩ := exists_cons_of_ne_nil hrest
        have hne' : bin'.size ≠ 0 := by
          rw [Ne, size_eq_zero_iff, hun']
          exact pairBytes_ne_nil hrest hlast
        obtain ⟨e, he⟩ := turn_stops ix update ht
          (hvalid' y mem_cons_self) hs' (hun'.trans flatMap_cons) hne' hstale n p'
        rw [he] at hok
        cases hok
      intro y hy
      rcases mem_cons.mp hy with rfl | hy
      · exact ⟨hfresh.1, (ht.moved _ _ hm).mpr hfresh.2⟩
      · exact ih hvalid' hlast hs' hun' hfresh.1 hfresh.2 hok y hy

section Tally

variable [LinearOrder K] {p : IndexedSeqPartition K (K × Nat)}

/-- Objects that count the messages for their key. -/
def tally : ObjType K (K × Nat) := ⟨Prod.fst, fun k => (k, 0), fun _ => rfl⟩

def countUp (o : K × Nat) (_ : M) : K × Nat := (o.1, o.2 + 1)

def total (p : IndexedSeqPartition K (K × Nat)) : Nat := (p.storage.map Prod.snd).sum

omit [LinearOrder K] in
theorem sum_modify (l : List (K × Nat)) (i : Nat) (hi : i < l.length) (m : M) :
    ((l.modify i (countUp · m)).map Prod.snd).sum = (l.map Prod.snd).sum + 1 := by
  induction l generalizing i with
  | nil => exact absurd hi (Nat.not_lt_zero i)
  | cons o l ih =>
    cases i with
    | zero =>
      simp only [modify_zero_cons, map_cons, sum_cons, countUp]
      omega
    | succ i =>
      simp only [modify_succ_cons, map_cons, sum_cons]
      rw [ih i (by simpa using hi)]
      omega

theorem total_joinOne (h : p.Unsorted) (x : K × M) :
    total (p.joinOne tally countUp x) = total p + 1 := by
  unfold total joinOne findOrCreate
  rw [h.find]
  cases hx : p.unsorted x.1 with
  | some i => exact sum_modify _ i (h.inRange _ i hx) x.2
  | none =>
    refine (sum_modify _ _ ?_ x.2).trans ?_
    · simp [typedAdd]
    · simp [typedAdd, tally]

theorem total_joinStream (h : p.Unsorted) (l : List (K × M)) :
    total (p.joinStream tally countUp l) = total p + l.length := by
  induction l generalizing p with
  | nil => rfl
  | cons x l ih =>
    have hone := total_joinOne h x
    have hunsorted : (p.joinOne tally countUp x).Unsorted := (h.joinOne x).1
    have hrest := ih hunsorted
    rw [hone] at hrest
    rw [length_cons]
    show total ((p.joinOne tally countUp x).joinStream tally countUp l) = _
    omega

/-- Pairs at the end that write nothing are not applied. -/
theorem total_le_of_ok (ht : PairTypes kt mt moved) {x : K × M}
    (hlast : kt.bytes x.1 ++ mt.bytes x.2 = [])
    (hvalid : ∀ x ∈ buffer,
      (kt.valid x.1 ∧ kt.size x.1 < 2 ^ 31) ∧ mt.valid x.2 ∧ mt.size x.2 < 2 ^ 31)
    {bin : SArrayBinStream} (hs : bin.buffer.length < 2 ^ 31)
    (hun : bin.unread = pairBytes kt mt (buffer ++ [x])) {key : K} {msg : M}
    {p : IndexedSeqPartition K (K × Nat)} (hp : p.Unsorted) {n : Nat}
    {r : IndexedSeqPartition K (K × Nat) × SArrayBinStream}
    (hok : getJoinPartFunc kt mt (IndexedSeqPartition.indexable tally) countUp moved n p key
      msg bin = .ok r) : total r.1 ≤ total p + buffer.length := by
  induction buffer generalizing bin key msg p n with
  | nil =>
    have hsize : bin.size = 0 := by
      rw [size_eq_zero_iff, hun]
      simpa [pairBytes] using hlast
    cases n <;>
    · rw [getJoinPartFunc, if_pos hsize] at hok
      cases hok
      exact Nat.le_refl _
  | cons y rest ih =>
    by_cases hsize : bin.size = 0
    · cases n <;>
      · rw [getJoinPartFunc, if_pos hsize] at hok
        cases hok
        exact Nat.le_add_right _ _
    have hy := hvalid y mem_cons_self
    have hun' : bin.unread = kt.bytes y.1 ++ mt.bytes y.2 ++ pairBytes kt mt (rest ++ [x]) :=
      hun.trans flatMap_cons
    by_cases hfresh : kt.fresh key ∧ mt.fresh msg
    · cases n with
      | zero =>
        rw [getJoinPartFunc, if_neg hsize] at hok
        cases hok
      | succ n =>
        obtain ⟨m, bin', -, hs', hrest, hturn⟩ := turn_eq
          (indexable tally) ht (show ∀ o m m', _ → countUp o m = countUp o m' from
            fun _ _ _ _ => rfl) hy hs hun' hsize hfresh.1 hfresh.2 n p
        rw [hturn] at hok
        have hok' : getJoinPartFunc kt mt (indexable tally) countUp moved
            n (p.joinOne tally countUp y) y.1 (moved m) bin' = .ok r := hok
        have hunsorted : (p.joinOne tally countUp y).Unsorted := (hp.joinOne y).1
        have hle := ih (fun z hz => hvalid z (mem_cons_of_mem _ hz)) hs' hrest hunsorted hok'
        rw [total_joinOne hp y] at hle
        rw [length_cons]
        omega
    · obtain ⟨e, he⟩ := turn_stops (indexable tally) countUp ht hy hs hun' hsize hfresh n p
      rw [he] at hok
      cases hok

end Tally

/-- **Joins of both kinds** have the same effect for every partition and every update function if
and only if the buffer is readable. -/
theorem joinsAgree_iff_readable [LinearOrder K] (ht : PairTypes kt mt moved)
    (hb : Sendable kt mt buffer) :
    JoinsAgree kt mt moved buffer ↔ Readable kt mt moved buffer := by
  have hs : (empty.addBin (pairBytes kt mt buffer)).buffer.length < 2 ^ 31 := hb.length
  have hun : (empty.addBin (pairBytes kt mt buffer)).unread =
    pairBytes kt mt buffer := rfl
  constructor
  · intro hagree
    obtain ⟨bin, hbin, hrun⟩ := hagree _ _ _ (indexable tally) countUp
      (fun _ _ _ _ => rfl) .empty buffer.length (Nat.le_refl _)
    rw [serializeOneBuffer_ok ht hb] at hbin
    cases hbin
    rw [getJoinPartFunc2_indexed] at hrun
    obtain ⟨bin', hok, -⟩ := hrun
    have hlast : ∀ x ∈ buffer.getLast?, kt.bytes x.1 ++ mt.bytes x.2 ≠ [] := by
      intro x hx hnil
      obtain ⟨init, rfl⟩ := getLast?_eq_some_iff.mp hx
      have hle := total_le_of_ok ht hnil
        (fun y hy => hb.valid y (mem_append_left _ hy)) hs hun
        unsorted_empty hok
      rw [total_joinStream unsorted_empty, length_append,
        length_singleton] at hle
      omega
    exact ⟨reusable_of_ok ht (fun _ _ _ _ => rfl) hb.valid hlast hs hun ht.key.init ht.msg.init hok,
      hlast⟩
  · intro hread O P ε ix update hu p n hn
    exact ⟨_, serializeOneBuffer_ok ht hb,
      getJoinPartFunc_eq ht hu hb.valid hread hs hun ht.key.init ht.msg.init p n hn⟩

/-! ## Messages that are streams -/

/-- `SArrayBinStream` declares its destructor, so that it has no move constructor: `std::move`
leaves it as it is. -/
theorem pairTypes_intStream : PairTypes int stream id where
  key := exact_int.roundTrip
  msg := stream_roundTrip
  strict := exact_int.strict
  sharpKey := Built.sharp (.triv _)
  sharpMsg := Built.sharp .stream
  moved m m' h := by
    show m.size = 0 ↔ m'.size = 0
    rw [size_eq_zero_iff, size_eq_zero_iff]
    exact iff_of_eq (congrArg (· = []) h)

/-- Two messages for key 1 of one byte each. -/
def twoStreams : List (Int × SArrayBinStream) := [(1, .copyFrom [7]), (1, .copyFrom [8])]

theorem sendable_twoStreams : Sendable int stream twoStreams where
  valid x hx := by
    have hall : ∀ x ∈ twoStreams, (-2 ^ 31 ≤ x.1 ∧ x.1 < 2 ^ 31) ∧ 8 + x.2.size < 2 ^ 31 := by decide
    obtain ⟨hk, hm⟩ := hall x hx
    exact ⟨⟨hk, (by decide : 4 < 2 ^ 31)⟩, trivial, hm⟩
  length := by decide

theorem sendable_oneStream : Sendable int stream (twoStreams.take 1) where
  valid x hx := sendable_twoStreams.valid x (mem_of_mem_take hx)
  length := by decide

theorem joinsAgree_oneStream : JoinsAgree int stream id (twoStreams.take 1) ∧
    ¬ JoinsAgree int stream id twoStreams := by
  refine ⟨(joinsAgree_iff_readable pairTypes_intStream sendable_oneStream).mpr ⟨?_, ?_⟩, ?_⟩
  · exact fun x hx => absurd hx not_mem_nil
  · rintro x hx
    cases Option.some.inj hx
    decide
  · intro h
    have hread := (joinsAgree_iff_readable pairTypes_intStream sendable_twoStreams).mp h
    have hfresh := (hread.reusable (1, .copyFrom [7]) (by decide)).2
    exact absurd (show (1 : Nat) = 0 from hfresh) (by decide)

/-- The second message is read into the first, which still holds its byte: `CHECK` fails, where
`GetJoinPartFunc2` applies both. -/
theorem second_stream_stops : ∃ bin, serializeOneBuffer int stream twoStreams = .ok bin ∧
    (∀ n, getJoinPartFunc int stream (IndexedSeqPartition.indexable tally) countUp id (n + 2) .empty
      0 .empty bin = .error (.bin .nested)) ∧
    (∃ q, getJoinPartFunc2 (IndexedSeqPartition.indexable tally) countUp .empty twoStreams = .ok q ∧
      q.storage = [(1, 2)]) :=
  ⟨_, rfl, fun _ => rfl, _, rfl, rfl⟩

end Tangram
