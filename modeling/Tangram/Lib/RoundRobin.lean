import Mathlib

/-!
# Round robin

Turns that go round among the elements of a list.  Each of `k` has its share of
the first `n` turns, and two shares differ by one at most; `turns` are the elements
of a list that the turns of one of them bring.

    a ∈ l → b ∈ l → (deal l d 0 n).count a ≤ (deal l d 0 n).count b + 1     (count_deal_le)
    0 < k → the turns of all of k are the list                              (flatMap_turns_perm)
-/

namespace RoundRobin

open List

/-- The number of the first `n` turns that the `i`-th of `k` has. -/
def share (n k i : Nat) : Nat := (List.range n).countP fun j => j % k = i

theorem countP_range (p : Nat → Prop) [DecidablePred p] (n : Nat) :
    ((List.range n).countP fun j => p j) = n.count p := by
  induction n with
  | zero => rfl
  | succ n ih =>
    rw [range_succ, countP_append, ih, Nat.count_succ]
    by_cases h : p n <;> simp [h]

theorem share_eq {n k i : Nat} (hi : i < k) : share n k i = n / k + if i < n % k then 1 else 0 := by
  have hcount := Nat.count_modEq_card n (Nat.zero_lt_of_lt hi) i
  rw [Nat.mod_eq_of_lt hi, ← countP_range] at hcount
  rw [← hcount, share]
  refine countP_congr fun x _ => ?_
  rw [decide_eq_true_iff, decide_eq_true_iff, Nat.ModEq, Nat.mod_eq_of_lt hi]

theorem share_le {n k i i' : Nat} (hi : i < k) (hi' : i' < k) :
    share n k i ≤ share n k i' + 1 := by
  rw [share_eq hi, share_eq hi']
  split <;> split <;> omega

variable {α : Type} {l : List α} {d : α}

/-- `n` turns among `l`, of which the first is that of the element at `it`. -/
def deal (l : List α) (d : α) (it n : Nat) : List α :=
  (List.range n).map fun j => l.getD ((it + j) % l.length) d

theorem length_deal (l : List α) (d : α) (it n : Nat) : (deal l d it n).length = n := by
  unfold deal
  rw [length_map, length_range]

theorem deal_succ (l : List α) (d : α) (it n : Nat) :
    deal l d it (n + 1) = l.getD (it % l.length) d :: deal l d (it + 1) n := by
  unfold deal
  rw [range_succ_eq_map, map_cons, map_map, Nat.add_zero]
  congr 1
  refine map_congr_left fun j _ => ?_
  show l.getD ((it + (j + 1)) % l.length) d = l.getD ((it + 1 + j) % l.length) d
  rw [show it + (j + 1) = it + 1 + j by omega]

/-- After the last element comes the first. -/
theorem deal_mod (l : List α) (d : α) (it n : Nat) :
    deal l d (it % l.length) n = deal l d it n := by
  unfold deal
  refine map_congr_left fun j _ => ?_
  rw [Nat.mod_add_mod]

theorem deal_subset (hl : l ≠ []) (it n : Nat) {a : α} (ha : a ∈ deal l d it n) : a ∈ l := by
  obtain ⟨j, -, rfl⟩ := mem_map.mp ha
  have hlt : (it + j) % l.length < l.length := Nat.mod_lt _ (length_pos_iff.mpr hl)
  rw [getD_eq_getElem _ _ hlt]
  exact getElem_mem hlt

theorem count_deal [DecidableEq α] (hnd : l.Nodup) {i : Nat} (hi : i < l.length) (n : Nat) :
    (deal l d 0 n).count l[i] = share n l.length i := by
  unfold deal share
  rw [List.count, countP_map]
  refine countP_congr fun j _ => ?_
  have hlt : j % l.length < l.length := Nat.mod_lt _ (Nat.zero_lt_of_lt hi)
  show (l.getD ((0 + j) % l.length) d == l[i]) = true ↔ decide (j % l.length = i) = true
  rw [Nat.zero_add, getD_eq_getElem _ _ hlt, beq_iff_eq, decide_eq_true_iff]
  exact hnd.getElem_inj_iff

/-- Two elements get the same number of turns, or one more. -/
theorem count_deal_le [DecidableEq α] (hnd : l.Nodup) {a b : α} (ha : a ∈ l) (hb : b ∈ l) (n : Nat) :
    (deal l d 0 n).count a ≤ (deal l d 0 n).count b + 1 := by
  obtain ⟨i, hi, rfl⟩ := mem_iff_getElem.mp ha
  obtain ⟨j, hj, rfl⟩ := mem_iff_getElem.mp hb
  rw [count_deal hnd hi, count_deal hnd hj]
  exact share_le hi hj

/-! ## What the turns bring -/

/-- The elements that `p` of `k` gets, where the first element is turn `i`. -/
def turns (k p : Nat) : Nat → List α → List α
  | _, [] => []
  | i, a :: l => if i % k = p then a :: turns k p (i + 1) l else turns k p (i + 1) l

theorem turns_sublist (k p i : Nat) (l : List α) : (turns k p i l).Sublist l := by
  induction l generalizing i with
  | nil => exact List.Sublist.refl _
  | cons a l ih =>
    unfold turns
    split
    · exact (ih (i + 1)).cons_cons a
    · exact (ih (i + 1)).cons a

theorem length_turns (k p : Nat) (l : List α) : (turns k p 0 l).length = share l.length k p := by
  have hfrom : ∀ i, (turns k p i l).length = (List.range' i l.length).countP (· % k = p) := by
    induction l with
    | nil => exact fun _ => rfl
    | cons a l ih =>
      intro i
      unfold turns
      rw [length_cons, List.range'_succ, countP_cons]
      by_cases h : i % k = p
      · simp [h, ih]
      · simp [h, ih]
  rw [hfrom, ← range_eq_range']
  rfl

/-- One element goes to one of them. -/
theorem flatMap_single {k j : Nat} (h : j < k) (a : α) :
    ((List.range k).flatMap fun p => if j = p then [a] else []) = [a] := by
  obtain ⟨m, rfl⟩ : ∃ m, k = j + 1 + m := ⟨k - (j + 1), by omega⟩
  have hlow : ((List.range j).flatMap fun p => if j = p then [a] else []) = [] := by
    rw [flatMap_eq_nil_iff]
    intro p hp
    exact if_neg (by have := mem_range.mp hp; omega)
  have hhigh : (((List.range m).map (j + 1 + ·)).flatMap fun p => if j = p then [a] else []) = [] := by
    rw [flatMap_eq_nil_iff]
    intro p hp
    obtain ⟨q, -, rfl⟩ := mem_map.mp hp
    exact if_neg (by omega)
  rw [range_add, range_succ, flatMap_append, flatMap_append, hlow, hhigh]
  simp

/-- **Every element has its turn**, once. -/
theorem flatMap_turns_perm {k : Nat} (hk : 0 < k) (i : Nat) (l : List α) :
    ((List.range k).flatMap fun p => turns k p i l).Perm l := by
  induction l generalizing i with
  | nil =>
    have hnil : ((List.range k).flatMap fun p => turns k p i ([] : List α)) = [] :=
      flatMap_eq_nil_iff.mpr fun _ _ => rfl
    rw [hnil]
  | cons a l ih =>
    have hcons : (fun p => turns k p i (a :: l)) =
        fun p => (if i % k = p then [a] else []) ++ turns k p (i + 1) l := by
      funext p
      show (if i % k = p then a :: turns k p (i + 1) l else turns k p (i + 1) l) = _
      split <;> rfl
    rw [hcons]
    refine (flatMap_append_perm _ _ _).symm.trans ?_
    rw [flatMap_single (Nat.mod_lt i hk)]
    exact (ih (i + 1)).cons a

end RoundRobin
