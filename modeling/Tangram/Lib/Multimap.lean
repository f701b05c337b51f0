import Mathlib

/-!
# Maps to lists

A `Multimap κ α` is a map from keys to lists that are filled by `push` and taken
out as a whole, by `erase` for one key or as `entries` for all.  Nothing is under
a key that is not there, so the entries hold everything (`countIn_entries`).
-/

structure Multimap (κ α : Type) where
  keys : List κ
  val : κ → List α
  nodup : keys.Nodup
  mem_keys : ∀ k, val k ≠ [] → k ∈ keys

namespace Multimap

open List

variable {κ α β : Type}

def empty : Multimap κ α := ⟨[], fun _ => [], List.nodup_nil, fun _ h => absurd rfl h⟩

@[simp] theorem val_empty (k : κ) : (empty : Multimap κ α).val k = [] := rfl

/-- The keys with what is under them, where there is something. -/
def entries (m : Multimap κ α) : List (κ × List α) :=
  (m.keys.filter fun k => !(m.val k).isEmpty).map fun k => (k, m.val k)

variable [DecidableEq κ] (m : Multimap κ α)

/-- `m[k].push_back(a)`. -/
def push (m : Multimap κ α) (k : κ) (a : α) : Multimap κ α where
  keys := if k ∈ m.keys then m.keys else m.keys ++ [k]
  val := Function.update m.val k (m.val k ++ [a])
  nodup := by
    split
    · exact m.nodup
    · next h =>
      refine List.nodup_append.mpr ⟨m.nodup, List.nodup_singleton k, fun a ha b hb => ?_⟩
      rintro rfl
      exact h (List.mem_singleton.mp hb ▸ ha)
  mem_keys k' h := by
    by_cases hk : k' = k
    · subst hk
      split <;> simp_all
    · rw [Function.update_of_ne hk] at h
      have := m.mem_keys k' h
      split <;> simp_all

def erase (m : Multimap κ α) (k : κ) : Multimap κ α where
  keys := m.keys.filter (· ≠ k)
  val := Function.update m.val k []
  nodup := m.nodup.filter _
  mem_keys k' h := by
    by_cases hk : k' = k
    · subst hk
      simp at h
    · rw [Function.update_of_ne hk] at h
      simp [m.mem_keys k' h, hk]

theorem val_push (k k' : κ) (a : α) :
    (m.push k a).val k' = if k' = k then m.val k ++ [a] else m.val k' := by
  by_cases h : k' = k
  · subst h
    simp [push]
  · simp [push, h]

theorem val_erase (k k' : κ) : (m.erase k).val k' = if k' = k then [] else m.val k' := by
  by_cases h : k' = k
  · subst h
    simp [erase]
  · simp [erase, h]

/-- Several elements under one key. -/
theorem val_foldl_push {γ : Type} (g : γ → α) (l : List γ) (m : Multimap κ α) (k k' : κ) :
    (l.foldl (fun m a => m.push k (g a)) m).val k' =
      if k' = k then m.val k ++ l.map g else m.val k' := by
  induction l generalizing m with
  | nil =>
    by_cases h : k' = k
    · subst h
      simp
    · simp [h]
  | cons a l ih =>
    rw [foldl_cons, ih, val_push, val_push, if_pos rfl]
    by_cases h : k' = k
    · simp [h]
    · simp [h]

/-! ## Counting -/

section Count

variable [DecidableEq β]

/-- How often an element with `f a = b` is under key `k` in a list of entries. -/
def countIn (f : α → β) (k : κ) (b : β) (es : List (κ × List α)) : Nat :=
  (es.map fun e => if e.1 = k then (e.2.map f).count b else 0).sum

variable {f : α → β} {k : κ} {b : β} {es : List (κ × List α)}

@[simp] theorem countIn_nil : countIn f k b [] = 0 := rfl

theorem countIn_cons (e : κ × List α) (es : List (κ × List α)) :
    countIn f k b (e :: es) = (if e.1 = k then (e.2.map f).count b else 0) + countIn f k b es :=
  sum_cons

theorem countIn_append (es es' : List (κ × List α)) :
    countIn f k b (es ++ es') = countIn f k b es + countIn f k b es' := by
  unfold countIn
  rw [map_append, sum_append]

theorem countIn_perm {es es' : List (κ × List α)} (h : es.Perm es') :
    countIn f k b es = countIn f k b es' := (h.map _).sum_eq

theorem countIn_pos : 0 < countIn f k b es ↔ ∃ e ∈ es, e.1 = k ∧ b ∈ e.2.map f := by
  induction es with
  | nil => simp
  | cons e es ih =>
    rw [countIn_cons, Nat.add_pos_iff_pos_or_pos, ih, exists_mem_cons_iff]
    refine or_congr_left ?_
    split
    · next hk => rw [count_pos_iff, and_iff_right hk]
    · next hk => exact ⟨fun h => absurd h (Nat.lt_irrefl 0), fun h => absurd h.1 hk⟩

theorem countIn_map {γ : Type} (g : γ → α) (es : List (κ × List γ)) :
    countIn f k b (es.map fun e => (e.1, e.2.map g)) = countIn (f ∘ g) k b es := by
  induction es with
  | nil => rfl
  | cons e es ih => rw [map_cons, countIn_cons, countIn_cons, ih, map_map]

/-- An entry counts once, however often it holds the element. -/
theorem countP_le_countIn (es : List (κ × List α)) :
    es.countP (fun e => e.1 = k ∧ b ∈ e.2.map f) ≤ countIn f k b es := by
  induction es with
  | nil => exact Nat.le_refl 0
  | cons e es ih =>
    rw [countP_cons, countIn_cons, Nat.add_comm]
    refine Nat.add_le_add ?_ ih
    split
    · next h =>
      obtain ⟨hk, hb⟩ := of_decide_eq_true h
      rw [if_pos hk]
      exact count_pos_iff.mpr hb
    · exact Nat.zero_le _

theorem countP_eq_one (h : countIn f k b es = 1) :
    es.countP (fun e => e.1 = k ∧ b ∈ e.2.map f) = 1 := by
  have hle : es.countP (fun e => e.1 = k ∧ b ∈ e.2.map f) ≤ _ := countP_le_countIn es
  have hpos : 0 < es.countP fun e => e.1 = k ∧ b ∈ e.2.map f := by
    obtain ⟨e, he, hmem⟩ := countIn_pos.mp (h ▸ Nat.one_pos)
    exact countP_pos_iff.mpr ⟨e, he, decide_eq_true hmem⟩
  omega

/-- Under every key, the entries hold what the map holds. -/
theorem countIn_entries : countIn f k b m.entries = ((m.val k).map f).count b := by
  have hall : ∀ ks : List κ, ks.Nodup →
      countIn f k b ((ks.filter fun k => !(m.val k).isEmpty).map fun k => (k, m.val k)) =
        if k ∈ ks then ((m.val k).map f).count b else 0 := by
    intro ks hks
    induction ks with
    | nil => simp
    | cons k' ks ih =>
      obtain ⟨hnot, hks⟩ := nodup_cons.mp hks
      have ih := ih hks
      by_cases hv : m.val k' = []
      · rw [filter_cons_of_neg (by simp [hv]), ih]
        by_cases hk : k = k'
        · subst hk
          simp [hnot, hv]
        · simp [hk]
      · rw [filter_cons_of_pos (by simp [hv]), map_cons, countIn_cons, ih]
        by_cases hk : k = k'
        · subst hk
          simp [hnot]
        · simp [hk, Ne.symm hk]
  rw [entries, hall m.keys m.nodup]
  split
  · rfl
  · next hk =>
    have hnil : m.val k = [] := by
      by_contra h
      exact hk (m.mem_keys k h)
    simp [hnil]

end Count

omit [DecidableEq κ] in
theorem mem_entries {m : Multimap κ α} {e : κ × List α} (h : e ∈ m.entries) :
    e.2 ≠ [] ∧ e.2 = m.val e.1 := by
  obtain ⟨k, hk, rfl⟩ := mem_map.mp h
  refine ⟨?_, rfl⟩
  simpa using (mem_filter.mp hk).2

end Multimap
