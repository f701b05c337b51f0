import Mathlib

/-!
# Tables: finite maps with a default

A `Table κ α` is a map whose `t[k]` never fails: an absent key reads as the
default and is entered by the first write.  `keys` is the order in which a loop
over the map visits it.
-/

structure Table (κ α : Type) where
  keys : List κ
  val : κ → α

namespace Table

variable {κ α : Type}

/-- The table with every key of `ks` at `d`; `d` is also what an absent key reads as. -/
def ofKeys (ks : List κ) (d : α) : Table κ α := ⟨ks, fun _ => d⟩

/-- `t[k] = a`. -/
def set [DecidableEq κ] (t : Table κ α) (k : κ) (a : α) : Table κ α :=
  ⟨if k ∈ t.keys then t.keys else t.keys ++ [k], Function.update t.val k a⟩

/-- `t.erase(k)`; the key reads as `d` again. -/
def erase [DecidableEq κ] (t : Table κ α) (k : κ) (d : α) : Table κ α :=
  ⟨t.keys.filter (· ≠ k), Function.update t.val k d⟩

@[simp] theorem keys_ofKeys (ks : List κ) (d : α) : (ofKeys ks d).keys = ks := rfl

@[simp] theorem val_ofKeys (ks : List κ) (d : α) (k : κ) : (ofKeys ks d).val k = d := rfl

variable [DecidableEq κ] {k k' : κ} (t : Table κ α)

@[simp] theorem val_set_self (k : κ) (a : α) : (t.set k a).val k = a := by
  simp [set]

theorem val_set_ne (a : α) (h : k' ≠ k) : (t.set k a).val k' = t.val k' := by
  simp [set, Function.update_of_ne h]

theorem val_set (k k' : κ) (a : α) : (t.set k a).val k' = if k' = k then a else t.val k' := by
  by_cases h : k' = k
  · subst h; simp
  · rw [val_set_ne t a h, if_neg h]

theorem keys_set_of_mem {k : κ} (a : α) (h : k ∈ t.keys) : (t.set k a).keys = t.keys := by
  simp [set, h]

theorem mem_keys_set {t : Table κ α} {a : α} : k' ∈ (t.set k a).keys ↔ k' = k ∨ k' ∈ t.keys := by
  unfold set
  split
  · next h =>
    refine ⟨.inr, ?_⟩
    rintro (rfl | h')
    · exact h
    · exact h'
  · rw [List.mem_append, List.mem_singleton, or_comm]

theorem mem_keys_erase {t : Table κ α} {d : α} :
    k' ∈ (t.erase k d).keys ↔ k' ∈ t.keys ∧ k' ≠ k := by
  unfold erase
  rw [List.mem_filter, decide_eq_true_iff]

theorem val_erase_ne (d : α) (h : k' ≠ k) : (t.erase k d).val k' = t.val k' := by
  simp [erase, Function.update_of_ne h]

end Table
