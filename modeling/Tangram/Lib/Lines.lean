import Mathlib

/-!
# Lines of a text

A text split at a separator, without a final empty line after a separator at its
end.  `after b t` are the lines of `b ++ t` that start right behind a separator in
`b`; texts that are cut into blocks are put together again by `after_append`.
-/

namespace Tangram.Lines

open List

variable {α : Type} [DecidableEq α] (sep : α)

/-- Without the last line if that is empty. -/
def trim (ls : List (List α)) : List (List α) :=
  if ls.getLast? = some [] then ls.dropLast else ls

def lines (t : List α) : List (List α) := trim (t.splitOn sep)

def firstLine (t : List α) : List α := t.takeWhile fun c => c ≠ sep

/-- The lines of `b ++ t` that start behind a separator in `b`. -/
def after : List α → List α → List (List α)
  | [], _ => []
  | c :: b, t => (if c = sep ∧ b ++ t ≠ [] then [firstLine sep (b ++ t)] else []) ++ after b t

variable {sep} {u : List α}

theorem firstLine_append (hu : sep ∉ u) (t : List α) :
    firstLine sep (u ++ t) = u ++ firstLine sep t := by
  apply takeWhile_append_of_pos
  intro c hc
  have hne : c ≠ sep := fun he => hu (he ▸ hc)
  simp [hne]

theorem firstLine_append_sep (hu : sep ∉ u) (t : List α) : firstLine sep (u ++ sep :: t) = u := by
  rw [firstLine_append hu]
  simp [firstLine]

theorem after_append (b₁ b₂ t : List α) :
    after sep (b₁ ++ b₂) t = after sep b₁ (b₂ ++ t) ++ after sep b₂ t := by
  induction b₁ with
  | nil => rfl
  | cons c b ih =>
    rw [cons_append, after, after, ih, append_assoc, append_assoc]

theorem after_of_not_mem {b : List α} (hb : sep ∉ b) (t : List α) : after sep b t = [] := by
  induction b with
  | nil => rfl
  | cons c b ih =>
    rw [mem_cons, not_or] at hb
    rw [after, ih hb.2, if_neg fun h => hb.1 h.1.symm]
    rfl

/-- The first separator of a block. -/
theorem after_append_sep (hu : sep ∉ u) (v t : List α) :
    after sep (u ++ sep :: v) t = after sep (sep :: v) t := by
  rw [after_append, after_of_not_mem hu, nil_append]

theorem after_sep {v t : List α} (h : v ++ t ≠ []) :
    after sep (sep :: v) t = firstLine sep (v ++ t) :: after sep v t := by
  rw [after, if_pos ⟨rfl, h⟩]
  rfl

theorem trim_cons {l : List α} {ls : List (List α)} (h : ls ≠ []) : trim (l :: ls) = l :: trim ls := by
  obtain ⟨l', ls', rfl⟩ := exists_cons_of_ne_nil h
  unfold trim
  rw [getLast?_cons_cons, dropLast_cons_of_ne_nil h]
  split <;> rfl

/-- The first line and the lines after a separator. -/
theorem splitOn_eq (sep : α) (t : List α) : ∃ ls, t.splitOn sep = firstLine sep t :: ls ∧
    after sep t [] = trim ls ∧ (ls = [] → firstLine sep t = t) := by
  induction t with
  | nil => exact ⟨[], rfl, rfl, fun _ => rfl⟩
  | cons c t ih =>
    obtain ⟨ls, hsplit, hafter, hwhole⟩ := ih
    by_cases hc : c = sep
    · subst hc
      refine ⟨firstLine c t :: ls, ?_, ?_, fun h => absurd h (cons_ne_nil _ _)⟩
      · have : (c :: t).splitOn c = [] :: t.splitOn c := by
          simp [List.splitOn, splitOnP_cons_eq_if_modifyHead]
        rw [this, hsplit]
        simp [firstLine]
      · rw [after, hafter, append_nil]
        by_cases hls : ls = []
        · -- the text has one line, which is the whole of it
          rw [hwhole hls, hls]
          by_cases ht : t = []
          · simp [ht, trim]
          · simp [ht, trim]
        · have ht : t ≠ [] := by
            rintro rfl
            exact hls (List.cons.inj hsplit).2.symm
          rw [trim_cons hls, if_pos ⟨rfl, ht⟩]
          rfl
    · refine ⟨ls, ?_, ?_, fun h => ?_⟩
      · have : (c :: t).splitOn sep = (t.splitOn sep).modifyHead (List.cons c) := by
          simp [List.splitOn, splitOnP_cons_eq_if_modifyHead, hc]
        rw [this, hsplit]
        simp [firstLine, hc]
      · rw [after, if_neg fun h => hc h.1]
        exact hafter
      · have hrest : firstLine sep (c :: t) = c :: firstLine sep t := by simp [firstLine, hc]
        rw [hrest, hwhole h]

theorem lines_eq (t : List α) :
    lines sep t = if t = [] then [] else firstLine sep t :: after sep t [] := by
  obtain ⟨ls, hsplit, hafter, hwhole⟩ := splitOn_eq sep t
  rw [lines, hsplit, hafter]
  by_cases hls : ls = []
  · subst hls
    rw [hwhole rfl]
    by_cases ht : t = []
    · simp [ht, trim]
    · simp [ht, trim]
  · have ht : t ≠ [] := by
      rintro rfl
      exact hls (List.cons.inj hsplit).2.symm
    rw [trim_cons hls, if_neg ht]

end Tangram.Lines
