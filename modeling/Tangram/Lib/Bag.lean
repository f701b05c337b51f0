import Mathlib

/-!
# Lists as bags

A list of running tasks or of messages in flight is a bag whose elements leave
from any place.  What an element that leaves (`eraseIdx`) or changes (`set`) does
to the counts of the bag.
-/

namespace List

open List

variable {α β : Type} {l : List α} {i : Nat}

theorem perm_cons_of_getElem? {a : α} (h : l[i]? = some a) : l.Perm (a :: l.eraseIdx i) := by
  obtain ⟨hi, rfl⟩ := getElem?_eq_some_iff.mp h
  exact (getElem_cons_eraseIdx_perm hi).symm

/-- What is before and after an element. -/
theorem split_of_getElem? {a : α} (h : l[i]? = some a) :
    l = l.take i ++ a :: l.drop (i + 1) ∧ l.eraseIdx i = l.take i ++ l.drop (i + 1) := by
  obtain ⟨hi, rfl⟩ := getElem?_eq_some_iff.mp h
  refine ⟨?_, eraseIdx_eq_take_drop_succ l i⟩
  rw [getElem_cons_drop, take_append_drop]

/-- An element changes: the others are still there. -/
theorem mem_set_of_ne {a b c : α} (h : l[i]? = some a) (hb : b ∈ l) (hne : b ≠ a) :
    b ∈ l.set i c := by
  obtain ⟨j, hj, rfl⟩ := mem_iff_getElem.mp hb
  have hij : i ≠ j := by
    rintro rfl
    exact hne (Option.some.inj ((getElem?_eq_getElem hj).symm.trans h))
  exact mem_iff_getElem.mpr ⟨j, by rwa [length_set], by rw [getElem_set_ne hij]⟩

/-- An element changes in a way that `f` does not see. -/
theorem map_set_of_eq {a c : α} (h : l[i]? = some a) (f : α → β) (hf : f c = f a) :
    (l.set i c).map f = l.map f := by
  obtain ⟨hi, rfl⟩ := getElem?_eq_some_iff.mp h
  rw [map_set, hf, ← getElem_map f (h := by rwa [length_map]), set_getElem_self]

/-- A list that is dealt out by `f`, put together again in any order. -/
theorem flatMap_filter_perm [DecidableEq β] (f : α → β) {order : List β} (hnd : order.Nodup)
    (l : List α) (h : ∀ a ∈ l, f a ∈ order) :
    (order.flatMap fun b => l.filter (f · = b)).Perm l := by
  induction order generalizing l with
  | nil =>
    cases l with
    | nil => exact List.Perm.refl _
    | cons a l => exact absurd (h a mem_cons_self) not_mem_nil
  | cons b order ih =>
    obtain ⟨hb, hnd⟩ := nodup_cons.mp hnd
    -- what is left without the first part
    have hrest : (order.flatMap fun c => l.filter (f · = c)) =
        order.flatMap fun c => (l.filter (fun a => !decide (f a = b))).filter (f · = c) := by
      refine flatMap_congr fun c hc => ?_
      rw [filter_filter]
      refine filter_congr fun a _ => ?_
      have hbc : c ≠ b := fun heq => hb (heq ▸ hc)
      by_cases hac : f a = c
      · simp [hac, hbc]
      · simp [hac]
    rw [flatMap_cons, hrest]
    refine ((ih hnd _ ?_).append_left _).trans (filter_append_perm _ l)
    intro a ha
    obtain ⟨hal, hne⟩ := mem_filter.mp ha
    rcases mem_cons.mp (h a hal) with heq | hmem
    · simp [heq] at hne
    · exact hmem

theorem countP_filterMap_cons (f : α → Option β) (r : β → Bool) (a : α) (l : List α) :
    ((a :: l).filterMap f).countP r = (l.filterMap f).countP r + (f a).toList.countP r := by
  cases h : f a with
  | none => simp [h]
  | some b => simp [h, countP_cons]

/-- One element of a bag that is looked at through `f` leaves. -/
theorem countP_filterMap_of_getElem? {β : Type} {a : α} (h : l[i]? = some a) (f : α → Option β)
    (r : β → Bool) :
    (l.filterMap f).countP r = ((l.eraseIdx i).filterMap f).countP r + (f a).toList.countP r := by
  rw [((perm_cons_of_getElem? h).filterMap f).countP_eq, countP_filterMap_cons]

/-- Two lists that count the same by every test are the same bag. -/
theorem perm_of_countP {l₁ l₂ : List α} (h : ∀ r : α → Bool, l₁.countP r = l₂.countP r) :
    l₁.Perm l₂ := by
  classical
  refine perm_iff_count.mpr fun a => ?_
  simpa [List.count] using h (· == a)

end List
