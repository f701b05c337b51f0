import Mathlib

/-!
# Counting answers

A counter for each key says how many answers there are and how many are expected.
As long as a key is set up anew only when no question of it is open, the counter is
full exactly at the last answer.

    asked ~ k :: rest → ((c.add k).Full k ↔ k ∉ rest)     (Inv.full_add)
-/

namespace Gather

variable {κ : Type} [DecidableEq κ]

structure Counter (κ : Type) where
  count : κ → Int
  expected : κ → Int

namespace Counter

/-- `n` answers are expected from now on. -/
def expect (c : Counter κ) (k : κ) (n : Nat) : Counter κ :=
  ⟨Function.update c.count k 0, Function.update c.expected k n⟩

/-- One more answer. -/
def add (c : Counter κ) (k : κ) : Counter κ :=
  { c with count := Function.update c.count k (c.count k + 1) }

def Full (c : Counter κ) (k : κ) : Prop := c.count k = c.expected k

instance (c : Counter κ) (k : κ) : Decidable (c.Full k) :=
  inferInstanceAs (Decidable (c.count k = c.expected k))

end Counter

/-- `asked` are the keys of the open questions: what is missing for one of them is what is open. -/
def Inv (c : Counter κ) (asked : List κ) : Prop :=
  ∀ k ∈ asked, c.count k + asked.count k = c.expected k

variable {c : Counter κ} {asked rest : List κ} {k : κ}

theorem Inv.perm (h : Inv c asked) (hp : asked.Perm rest) : Inv c rest := by
  intro k hk
  rw [← hp.count_eq]
  exact h k (hp.mem_iff.mpr hk)

theorem inv_nil (c : Counter κ) : Inv c [] := fun _ hk => absurd hk List.not_mem_nil

/-- Questions of a key that has none open. -/
theorem Inv.expect (h : Inv c asked) (hk : k ∉ asked) (n : Nat) :
    Inv (c.expect k n) (asked ++ List.replicate n k) := by
  intro x hx
  rw [List.count_append, List.count_replicate]
  by_cases hxk : x = k
  · subst hxk
    rw [List.count_eq_zero_of_not_mem hk]
    simp [Counter.expect]
  · have hmem : x ∈ asked := by
      rcases List.mem_append.mp hx with hx | hx
      · exact hx
      · exact absurd (List.eq_of_mem_replicate hx) hxk
    have := h x hmem
    simp [Counter.expect, hxk, Ne.symm hxk]
    omega

theorem Inv.add (h : Inv c asked) (hp : asked.Perm (k :: rest)) : Inv (c.add k) rest := by
  intro x hx
  have hc := h x (hp.mem_iff.mpr (List.mem_cons_of_mem _ hx))
  rw [hp.count_eq, List.count_cons] at hc
  by_cases hxk : x = k
  · subst hxk
    simp [Counter.add] at hc ⊢
    omega
  · simp [Counter.add, hxk, Ne.symm hxk] at hc ⊢
    omega

/-- The last answer fills the counter, and no other one does. -/
theorem Inv.full_add (h : Inv c asked) (hp : asked.Perm (k :: rest)) :
    (c.add k).Full k ↔ k ∉ rest := by
  have hc := h k (hp.mem_iff.mpr List.mem_cons_self)
  rw [hp.count_eq, List.count_cons_self] at hc
  rw [← List.count_eq_zero]
  simp only [Counter.Full, Counter.add, Function.update_self]
  push_cast at hc
  omega

end Gather
