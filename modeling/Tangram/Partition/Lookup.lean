import Tangram.Partition.IndexedSeqPartition

/-!
# Lookups in a partition that may be sorted

`Sort` of an `IndexedSeqPartition` makes its whole storage the sorted part, which
`Find` searches with `std::lower_bound`; objects that are added later are found
through the index.  `Find` takes whatever the search in the sorted part stops at.
So a key is looked up rightly exactly if the search runs past the sorted part or
stops at the key itself (`Clear`); that keys stay distinct does not depend on it.
-/

namespace Tangram

open List IndexedSeqPartition

variable {K O : Type}

/-! ## Sorting and serialising -/

/-- A piece of what `IndexedSeqPartition::ToBin` writes. -/
inductive BinItem (K O : Type)
  | size (n : Nat)
  | obj (o : O)
  | index (unsorted : K → Option Nat)
  | sortedSize (n : Nat)

namespace IndexedSeqPartition

/-- `ToBin`: `storage_` (its length first), `unsorted_`, `sorted_size_`. -/
def toBin (p : IndexedSeqPartition K O) : List (BinItem K O) :=
  .size p.storage.length :: (p.storage.map .obj ++ [.index p.unsorted, .sortedSize p.sortedSize])

/-- The next `n` objects of a bin. -/
def readObjs : Nat → List (BinItem K O) → Option (List O × List (BinItem K O))
  | 0, bin => some ([], bin)
  | n + 1, .obj o :: bin => (readObjs n bin).map fun (os, rest) => (o :: os, rest)
  | _ + 1, _ => none

/-- `FromBin`: every field is read over what the partition holds. -/
def fromBin (bin : List (BinItem K O)) : Option (IndexedSeqPartition K O) :=
  match bin with
  | .size n :: bin =>
    match readObjs n bin with
    | some (storage, .index unsorted :: .sortedSize sortedSize :: _) =>
      some { storage, unsorted, sortedSize }
    | _ => none
  | _ => none

theorem readObjs_map (os : List O) (rest : List (BinItem K O)) :
    readObjs os.length (os.map .obj ++ rest) = some (os, rest) := by
  induction os with
  | nil => rfl
  | cons o os ih =>
    show (readObjs os.length (os.map .obj ++ rest)).map _ = _
    rw [ih]
    rfl

@[simp] theorem fromBin_toBin (p : IndexedSeqPartition K O) : fromBin p.toBin = some p := by
  unfold fromBin toBin
  simp only [readObjs_map]

variable [LinearOrder K] (T : ObjType K O)

/-- `Sort`; `std::sort` on objects with distinct keys. -/
def sort (p : IndexedSeqPartition K O) : IndexedSeqPartition K O :=
  { storage := p.storage.insertionSort fun a b => T.key a ≤ T.key b
    unsorted := fun _ => none
    sortedSize := p.storage.length }

def sorted (p : IndexedSeqPartition K O) : List O := p.storage.take p.sortedSize

/-- What `Add`, `FindOrCreate`, `Sort` and `ToBin` with `FromBin` make of an empty partition,
with the keys that were added or created so far. -/
inductive Filled : IndexedSeqPartition K O → List K → Prop
  | empty : Filled empty []
  | add {p : IndexedSeqPartition K O} {keys : List K} (h : Filled p keys) (o : O)
      (hnew : T.key o ∉ keys) : Filled (p.typedAdd T o) (T.key o :: keys)
  | findOrCreate {p : IndexedSeqPartition K O} {keys : List K} (h : Filled p keys) (k : K) :
      Filled (p.findOrCreate T k).2 (if p.find T k = none then k :: keys else keys)
  | sort {p : IndexedSeqPartition K O} {keys : List K} (h : Filled p keys) :
      Filled (p.sort T) keys
  | reload {p q : IndexedSeqPartition K O} {keys : List K} (h : Filled p keys)
      (hbin : fromBin p.toBin = some q) : Filled q keys

/-! ## The index -/

/-- The two parts of the index, over the keys that were added or created. -/
structure Indexed (p : IndexedSeqPartition K O) (keys : List K) : Prop where
  perm : (p.storage.map T.key).Perm keys
  nodup : keys.Nodup
  sortedSize : p.sortedSize ≤ p.storage.length
  sorted : p.sorted.Pairwise fun a b => T.key a < T.key b
  unsorted : ∀ k i, p.unsorted k = some i ↔
    p.sortedSize ≤ i ∧ ∃ o, p.storage[i]? = some o ∧ T.key o = k

variable {T} {p q : IndexedSeqPartition K O} {keys : List K} {k : K}

theorem indexed_empty : Indexed T (empty : IndexedSeqPartition K O) [] where
  perm := .nil
  nodup := nodup_nil
  sortedSize := Nat.le_refl 0
  sorted := .nil
  unsorted k i := by simp [empty]

theorem Indexed.mem (h : Indexed T p keys) : k ∈ keys ↔ ∃ o ∈ p.storage, T.key o = k := by
  rw [← h.perm.mem_iff, mem_map]

/-- A key that is not there is not in the index. -/
theorem Indexed.unsorted_none (h : Indexed T p keys) (hk : k ∉ keys) : p.unsorted k = none := by
  apply Option.eq_none_iff_forall_ne_some.mpr
  intro i hi
  obtain ⟨-, o, ho, hkey⟩ := (h.unsorted k i).mp hi
  exact hk (h.mem.mpr ⟨o, mem_of_getElem? ho, hkey⟩)

theorem Indexed.typedAdd (h : Indexed T p keys) {o : O} (hnew : T.key o ∉ keys) :
    Indexed T (p.typedAdd T o) (T.key o :: keys) := by
  have hlen := h.sortedSize
  refine ⟨?_, nodup_cons.mpr ⟨hnew, h.nodup⟩, ?_, ?_, ?_⟩
  · show ((p.storage ++ [o]).map T.key).Perm _
    rw [map_append, map_cons, map_nil]
    exact (perm_append_singleton _ _).trans (h.perm.cons _)
  · show p.sortedSize ≤ (p.storage ++ [o]).length
    rw [length_append]
    omega
  · show ((p.storage ++ [o]).take p.sortedSize).Pairwise _
    rw [take_append_of_le_length hlen]
    exact h.sorted
  · intro k i
    show Function.update p.unsorted (T.key o) (some p.storage.length) k = some i ↔
      p.sortedSize ≤ i ∧ ∃ o', (p.storage ++ [o])[i]? = some o' ∧ T.key o' = k
    by_cases hk : k = T.key o
    · subst hk
      rw [Function.update_self, Option.some.injEq]
      constructor
      · rintro rfl
        exact ⟨hlen, o, by simp, rfl⟩
      · rintro ⟨-, o', ho', hkey⟩
        by_cases hi : i < p.storage.length
        · rw [List.getElem?_append_left hi] at ho'
          exact absurd (h.mem.mpr ⟨o', mem_of_getElem? ho', hkey⟩) hnew
        · have := (List.getElem?_eq_some_iff.mp ho').1
          rw [length_append, length_singleton] at this
          omega
    · rw [Function.update_of_ne hk, h.unsorted]
      constructor
      · rintro ⟨hle, o', ho', hkey⟩
        have hi := (List.getElem?_eq_some_iff.mp ho').1
        exact ⟨hle, o', by rw [List.getElem?_append_left hi, ho'], hkey⟩
      · rintro ⟨hle, o', ho', hkey⟩
        refine ⟨hle, o', ?_, hkey⟩
        by_cases hi : i < p.storage.length
        · rwa [List.getElem?_append_left hi] at ho'
        · -- only the new object is left, and it has another key
          rw [List.getElem?_append_right (by omega), List.getElem?_singleton] at ho'
          split at ho'
          · cases ho'
            exact absurd hkey.symm hk
          · cases ho'

theorem Indexed.sort (h : Indexed T p keys) : Indexed T (p.sort T) keys := by
  have hperm := perm_insertionSort (fun a b => T.key a ≤ T.key b) p.storage
  have hkeys := (hperm.map T.key).trans h.perm
  refine ⟨hkeys, h.nodup, ?_, ?_, ?_⟩
  · show p.storage.length ≤ _
    exact Nat.le_of_eq hperm.length_eq.symm
  · show ((p.storage.insertionSort fun a b => T.key a ≤ T.key b).take p.storage.length).Pairwise _
    rw [take_of_length_le (Nat.le_of_eq hperm.length_eq)]
    have hle : (p.storage.insertionSort fun a b => T.key a ≤ T.key b).Pairwise
        fun a b => T.key a ≤ T.key b :=
      @pairwise_insertionSort O (fun a b => T.key a ≤ T.key b) _
        ⟨fun a b => le_total (T.key a) (T.key b)⟩ ⟨fun a b c => le_trans⟩ p.storage
    have hne : (p.storage.insertionSort fun a b => T.key a ≤ T.key b).Pairwise
        fun a b => T.key a ≠ T.key b :=
      pairwise_map.mp (hkeys.nodup_iff.mpr h.nodup)
    exact (hle.and hne).imp fun ⟨hab, hnab⟩ => lt_of_le_of_ne hab hnab
  · intro k i
    constructor
    · intro hk
      cases hk
    · rintro ⟨hle, o, ho, -⟩
      have hi := (List.getElem?_eq_some_iff.mp ho).1
      have hlen : (p.sort T).storage.length = (p.sort T).sortedSize := hperm.length_eq
      omega

/-! ## What `Find` returns -/

/-- Some object of the sorted part has a key that is not less than `k`: the search stops there. -/
theorem find_of_reached (h : Indexed T p keys) (hk : ∃ o ∈ p.sorted, k ≤ T.key o) :
    ∃ i o, p.find T k = some i ∧ p.storage[i]? = some o ∧ o ∈ p.sorted ∧ k ≤ T.key o ∧
      ∀ o' ∈ p.sorted, k ≤ T.key o' → T.key o ≤ T.key o' := by
  have hlen : p.sorted.length = p.sortedSize :=
    length_take_of_le h.sortedSize
  let i := p.sorted.findIdx fun a => ¬ T.key a < k
  have hi : i < p.sorted.length := by
    apply findIdx_lt_length.mpr
    obtain ⟨o, ho, hle⟩ := hk
    exact ⟨o, ho, by simpa using hle⟩
  have hstop : k ≤ T.key p.sorted[i] := by
    have hfound := findIdx_getElem (w := hi)
    exact not_lt.mp (of_decide_eq_true hfound)
  refine ⟨i, p.sorted[i], ?_, ?_, getElem_mem hi, hstop, ?_⟩
  · show (if p.sortedSize ≠ 0 ∧ i < p.sortedSize then some i else p.unsorted k) = some i
    exact if_pos ⟨by omega, by omega⟩
  · have hget : p.sorted[i]? = some p.sorted[i] := getElem?_eq_getElem hi
    unfold sorted at hget
    rwa [getElem?_take_of_lt (by omega)] at hget
  · intro o' ho' hle
    obtain ⟨j, hj, rfl⟩ := mem_iff_getElem.mp ho'
    -- nothing before the place found has such a key
    have hij : i ≤ j := by
      by_contra hlt
      have hbefore := not_of_lt_findIdx (show j < i by omega)
      exact of_decide_eq_false hbefore (not_lt.mpr hle)
    rcases Nat.lt_or_eq_of_le hij with hlt | heq
    · exact le_of_lt (pairwise_iff_getElem.mp h.sorted i j hi hj hlt)
    · simp [heq]

/-- All keys of the sorted part are less than `k`: the index decides. -/
theorem find_of_passed (h : Indexed T p keys) (hk : ∀ o ∈ p.sorted, T.key o < k) :
    p.find T k = p.unsorted k := by
  have hlen : p.sorted.length = p.sortedSize := length_take_of_le h.sortedSize
  have hidx : p.sorted.findIdx (fun a => ¬ T.key a < k) = p.sorted.length := by
    apply findIdx_eq_length.mpr
    intro o ho
    simpa using hk o ho
  show (if p.sortedSize ≠ 0 ∧ p.sorted.findIdx (fun a => ¬ T.key a < k) < p.sortedSize then _
    else p.unsorted k) = p.unsorted k
  apply if_neg
  omega

theorem find_none (h : Indexed T p keys) (hk : p.find T k = none) : k ∉ keys := by
  have hpassed : ∀ o ∈ p.sorted, T.key o < k := by
    intro o ho
    by_contra hle
    obtain ⟨i, o', hi, -⟩ := find_of_reached h ⟨o, ho, not_lt.mp hle⟩
    rw [hk] at hi
    cases hi
  rw [find_of_passed h hpassed] at hk
  intro hmem
  obtain ⟨o, ho, hkey⟩ := h.mem.mp hmem
  obtain ⟨i, hi⟩ := mem_iff_getElem?.mp ho
  -- the object is behind the sorted part, so the index has it
  have hle : p.sortedSize ≤ i := by
    by_contra hlt
    have hs : o ∈ p.sorted := mem_iff_getElem?.mpr
      ⟨i, by unfold sorted; rw [getElem?_take_of_lt (by omega), hi]⟩
    exact absurd hkey (ne_of_lt (hpassed o hs))
  rw [(h.unsorted k i).mpr ⟨hle, o, hi, hkey⟩] at hk
  cases hk

/-- **The keys stay distinct**, whatever the lookups return. -/
theorem Filled.indexed (h : Filled T p keys) : Indexed T p keys := by
  induction h with
  | empty => exact indexed_empty
  | add _ o hnew ih => exact ih.typedAdd hnew
  | @findOrCreate p keys _ k ih =>
    unfold IndexedSeqPartition.findOrCreate
    cases hk : p.find T k with
    | some i => simpa using ih
    | none =>
      have hnew : T.key (T.create k) ∉ keys := by
        rw [T.key_create]
        exact find_none ih hk
      have hadd := ih.typedAdd hnew
      rw [T.key_create] at hadd
      simpa using hadd
  | sort _ ih => exact ih.sort
  | reload _ hbin ih =>
    rw [fromBin_toBin] at hbin
    cases hbin
    exact ih

/-! ## Which lookups are right -/

/-- What `Find` and `FindOrCreate` promise for a key. -/
structure LookupOk (T : ObjType K O) (p : IndexedSeqPartition K O) (keys : List K) (k : K) :
    Prop where
  found : k ∈ keys → ∃ i o, p.find T k = some i ∧ p.storage[i]? = some o ∧ T.key o = k
  absent : k ∉ keys → p.find T k = none
  returned : ∃ o, (p.findOrCreate T k).2.storage[(p.findOrCreate T k).1]? = some o ∧ T.key o = k
  created : (p.findOrCreate T k).2.storage.length =
    p.storage.length + if k ∈ keys then 0 else 1
  others : ∀ i < p.storage.length, (p.findOrCreate T k).2.storage[i]? = p.storage[i]?

/-- The search in the sorted part runs to its end, or `k` is the key of an object there. -/
def Clear (T : ObjType K O) (p : IndexedSeqPartition K O) (k : K) : Prop :=
  (∀ o ∈ p.sorted, T.key o < k) ∨ ∃ o ∈ p.sorted, T.key o = k

theorem Indexed.find_of_mem (h : Indexed T p keys) (hc : Clear T p k) (hk : k ∈ keys) :
    ∃ i o, p.find T k = some i ∧ p.storage[i]? = some o ∧ T.key o = k := by
  rcases hc with hpassed | ⟨o, ho, hkey⟩
  · cases hf : p.find T k with
    | none => exact absurd hk (find_none h hf)
    | some i =>
      rw [find_of_passed h hpassed] at hf
      obtain ⟨-, o, ho, hkey⟩ := (h.unsorted k i).mp hf
      exact ⟨i, o, rfl, ho, hkey⟩
  · obtain ⟨i, o', hf, ho', -, hle, hleast⟩ := find_of_reached h ⟨o, ho, le_of_eq hkey.symm⟩
    refine ⟨i, o', hf, ho', le_antisymm ?_ hle⟩
    exact hkey ▸ hleast o ho (le_of_eq hkey.symm)

theorem Indexed.find_of_not_mem (h : Indexed T p keys) (hc : Clear T p k) (hk : k ∉ keys) :
    p.find T k = none := by
  rcases hc with hpassed | ⟨o, ho, hkey⟩
  · rw [find_of_passed h hpassed]
    exact h.unsorted_none hk
  · exact absurd (h.mem.mpr ⟨o, mem_of_mem_take ho, hkey⟩) hk

theorem Indexed.lookupOk (h : Indexed T p keys) (hc : Clear T p k) : LookupOk T p keys k := by
  refine ⟨h.find_of_mem hc, h.find_of_not_mem hc, ?_, ?_, ?_⟩ <;>
    unfold IndexedSeqPartition.findOrCreate <;> by_cases hk : k ∈ keys
  · obtain ⟨i, o, hf, ho, hkey⟩ := h.find_of_mem hc hk
    rw [hf]
    exact ⟨o, ho, hkey⟩
  · rw [h.find_of_not_mem hc hk]
    exact ⟨T.create k, by simp [IndexedSeqPartition.typedAdd], T.key_create k⟩
  · obtain ⟨i, o, hf, -, -⟩ := h.find_of_mem hc hk
    simp [hf, hk]
  · simp [h.find_of_not_mem hc hk, hk, IndexedSeqPartition.typedAdd]
  · obtain ⟨i, o, hf, -, -⟩ := h.find_of_mem hc hk
    simp [hf]
  · intro i hi
    simp [h.find_of_not_mem hc hk, IndexedSeqPartition.typedAdd, getElem?_append_left hi]

/-- A search that stops at another key returns its object. -/
theorem Indexed.clear_of_lookupOk (h : Indexed T p keys) (hok : LookupOk T p keys k) :
    Clear T p k := by
  by_cases hk : ∃ o ∈ p.sorted, k ≤ T.key o
  · obtain ⟨i, o, hf, ho, hs, -, -⟩ := find_of_reached h hk
    refine .inr ⟨o, hs, ?_⟩
    obtain ⟨o', ho', hkey⟩ := hok.returned
    unfold findOrCreate at ho'
    simp only [hf] at ho'
    rw [ho] at ho'
    cases ho'
    exact hkey
  · push Not at hk
    exact .inl hk

/-- Objects that are their own key. -/
def ownKey : ObjType Int Int := ⟨id, id, fun _ => rfl⟩

def oneAndFive : IndexedSeqPartition Int Int :=
  (((empty.typedAdd ownKey 5).typedAdd ownKey 1).sort ownKey)

theorem filled_oneAndFive : Filled ownKey oneAndFive [1, 5] :=
  .sort (.add (.add .empty 5 (by decide)) 1 (by decide))

end IndexedSeqPartition

end Tangram
