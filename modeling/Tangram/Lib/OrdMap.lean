import Mathlib

/-!
# Ordered sets and maps

`OrdSet κ` and `OrdMap κ α` are a set and a map that a loop visits in the order
of the keys.  What is there is said by `∈`; reading an absent key of a map gives
`none`, and `getD` is the read that never fails.
-/

/-- A set, as the sorted list of its elements. -/
structure OrdSet (κ : Type) [LinearOrder κ] where
  elems : List κ
  sorted : elems.Pairwise (· < ·)

namespace OrdSet

variable {κ : Type} [LinearOrder κ] {s : OrdSet κ} {k : κ}

instance : Membership κ (OrdSet κ) := ⟨fun s k => k ∈ s.elems⟩

instance (k : κ) (s : OrdSet κ) : Decidable (k ∈ s) := inferInstanceAs (Decidable (k ∈ s.elems))

theorem mem_def : k ∈ s ↔ k ∈ s.elems := Iff.rfl

theorem nodup (s : OrdSet κ) : s.elems.Nodup := s.sorted.imp fun h => h.ne

def empty : OrdSet κ := ⟨[], List.Pairwise.nil⟩

@[simp] theorem notMem_empty (k : κ) : k ∉ (empty : OrdSet κ) := List.not_mem_nil

theorem sorted_orderedInsert {l : List κ} (hl : l.Pairwise (· < ·)) (hk : k ∉ l) :
    (l.orderedInsert (· ≤ ·) k).Pairwise (· < ·) := by
  have hle : (l.orderedInsert (· ≤ ·) k).Pairwise (· ≤ ·) :=
    List.Pairwise.orderedInsert k l (hl.imp fun h => h.le)
  have hnd : (l.orderedInsert (· ≤ ·) k).Nodup :=
    (List.perm_orderedInsert (· ≤ ·) k l).nodup_iff.mpr
      (List.nodup_cons.mpr ⟨hk, hl.imp fun h => h.ne⟩)
  exact (List.Pairwise.and hle hnd).imp fun h => lt_of_le_of_ne h.1 h.2

/-- `s.insert(k)`. -/
def insert (s : OrdSet κ) (k : κ) : OrdSet κ :=
  if h : k ∈ s.elems then s
  else ⟨s.elems.orderedInsert (· ≤ ·) k, sorted_orderedInsert s.sorted h⟩

/-- `s.erase(k)`. -/
def erase (s : OrdSet κ) (k : κ) : OrdSet κ :=
  ⟨s.elems.filter (· ≠ k), s.sorted.filter _⟩

@[simp] theorem mem_insert {k k' : κ} : k' ∈ s.insert k ↔ k' = k ∨ k' ∈ s := by
  unfold insert
  split
  · next h =>
    constructor
    · exact .inr
    · rintro (rfl | h')
      · exact h
      · exact h'
  · exact List.mem_orderedInsert _

@[simp] theorem mem_erase {k k' : κ} : k' ∈ s.erase k ↔ k' ≠ k ∧ k' ∈ s := by
  simp [mem_def, erase, and_comm]

/-- A new element is one more. -/
theorem perm_insert (h : k ∉ s) : (s.insert k).elems.Perm (k :: s.elems) := by
  unfold insert
  rw [dif_neg (mem_def.not.mp h)]
  exact List.perm_orderedInsert _ k s.elems

/-- An element that is erased is one less. -/
theorem perm_erase (h : k ∈ s) : s.elems.Perm (k :: (s.erase k).elems) := by
  have herase : (s.erase k).elems = s.elems.erase k := by
    rw [s.nodup.erase_eq_filter]
    exact List.filter_congr fun x _ => by simp [bne, beq_eq_decide]
  rw [herase]
  exact List.perm_cons_erase h

end OrdSet

/-- A map, with the set of its keys. -/
structure OrdMap (κ α : Type) [LinearOrder κ] where
  keys : OrdSet κ
  get? : κ → Option α
  mem_keys : ∀ k, k ∈ keys ↔ (get? k).isSome

namespace OrdMap

variable {κ α : Type} [LinearOrder κ] (m : OrdMap κ α) (k k' : κ)

def empty : OrdMap κ α := ⟨.empty, fun _ => none, by simp⟩

/-- `m[k]`, where an absent key reads as `d`. -/
def getD (m : OrdMap κ α) (k : κ) (d : α) : α := (m.get? k).getD d

/-- `m[k] = a`. -/
def set (m : OrdMap κ α) (k : κ) (a : α) : OrdMap κ α where
  keys := m.keys.insert k
  get? := Function.update m.get? k (some a)
  mem_keys k' := by
    by_cases h : k' = k
    · subst h
      simp
    · simp [h, m.mem_keys k']

/-- `m.erase(k)`. -/
def erase (m : OrdMap κ α) (k : κ) : OrdMap κ α where
  keys := m.keys.erase k
  get? := Function.update m.get? k none
  mem_keys k' := by
    by_cases h : k' = k
    · subst h
      simp
    · simp [h, m.mem_keys k']

@[simp] theorem keys_empty : (empty : OrdMap κ α).keys = .empty := rfl

@[simp] theorem keys_set (k : κ) (a : α) : (m.set k a).keys = m.keys.insert k := rfl

@[simp] theorem keys_erase (k : κ) : (m.erase k).keys = m.keys.erase k := rfl

theorem get?_set (a : α) : (m.set k a).get? k' = if k' = k then some a else m.get? k' := by
  by_cases h : k' = k
  · subst h
    simp [set]
  · simp [set, h]

theorem get?_erase : (m.erase k).get? k' = if k' = k then none else m.get? k' := by
  by_cases h : k' = k
  · subst h
    simp [erase]
  · simp [erase, h]

@[simp] theorem getD_empty (k : κ) (d : α) : (empty : OrdMap κ α).getD k d = d := rfl

theorem getD_set (a d : α) : (m.set k a).getD k' d = if k' = k then a else m.getD k' d := by
  unfold getD
  rw [get?_set]
  split <;> rfl

theorem getD_erase (d : α) : (m.erase k).getD k' d = if k' = k then d else m.getD k' d := by
  unfold getD
  rw [get?_erase]
  split <;> rfl

theorem getD_of_notMem {m : OrdMap κ α} {k : κ} (h : k ∉ m.keys) (d : α) : m.getD k d = d := by
  rw [m.mem_keys, Bool.not_eq_true, Option.isSome_eq_false_iff, Option.isNone_iff_eq_none] at h
  unfold getD
  rw [h]
  rfl

/-! ### Entries -/

/-- The entries in the order of the keys. -/
def entries (m : OrdMap κ α) : List (κ × α) :=
  m.keys.elems.filterMap fun k => (m.get? k).map (Prod.mk k)

def ofEntries (l : List (κ × α)) : OrdMap κ α := l.foldr (fun e m => m.set e.1 e.2) .empty

/-- Two maps are the same if they read the same. -/
theorem eq_of_get? {m m' : OrdMap κ α} (h : ∀ k, m.get? k = m'.get? k) : m = m' := by
  have hmem : ∀ k, k ∈ m.keys.elems ↔ k ∈ m'.keys.elems := fun k => by
    rw [← OrdSet.mem_def, ← OrdSet.mem_def, m.mem_keys, m'.mem_keys, h]
  have hperm : m.keys.elems.Perm m'.keys.elems :=
    (List.perm_ext_iff_of_nodup m.keys.nodup m'.keys.nodup).mpr hmem
  obtain ⟨⟨elems, sorted⟩, get, hk⟩ := m
  obtain ⟨⟨elems', sorted'⟩, get', hk'⟩ := m'
  obtain rfl : elems = elems' :=
    hperm.eq_of_pairwise (fun a b _ _ hab hba => absurd hba (not_lt_of_gt hab)) sorted sorted'
  obtain rfl : get = get' := funext h
  rfl

theorem ofEntries_entries : ofEntries m.entries = m := by
  have hget : ∀ (l : List κ) (k : κ),
      (ofEntries (l.filterMap fun k => (m.get? k).map (Prod.mk k))).get? k =
        if k ∈ l then m.get? k else none := by
    intro l k
    induction l with
    | nil => rfl
    | cons a l ih =>
      rw [List.filterMap_cons]
      cases ha : m.get? a with
      | none =>
        refine ih.trans ?_
        by_cases hk : k = a
        · subst hk
          simp [ha]
        · simp [hk]
      | some b =>
        show ((ofEntries _).set a b).get? k = _
        rw [get?_set, ih]
        by_cases hk : k = a
        · subst hk
          simp [ha]
        · simp [hk]
  refine eq_of_get? fun k => (hget _ k).trans ?_
  split
  · rfl
  · next hk =>
    have := (m.mem_keys k).not.mp hk
    rw [Bool.not_eq_true, Option.isSome_eq_false_iff, Option.isNone_iff_eq_none] at this
    exact this.symm

end OrdMap
