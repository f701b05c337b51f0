import Tangram.Scheduler.ControlManager

/-!
# Names of files

`GetCheckpointUrl` (`core/scheduler/control.hpp`) names the file of a partition
under the url of a checkpoint, and the interval checkpoints of a plan are
`checkpoint_path/cp-k`; a `Write` plan writes the files `url/part-i`.  The names can
be read back: different partitions of different checkpoints never share a file
(`getCheckpointUrl_inj`, `cpName_inj`), nor do those of different `Write` urls
(`writeUrl_inj`).
-/

namespace Tangram

open List

def getCheckpointUrl (url : String) (collectionId partitionId : Int) : String :=
  url ++ "/c" ++ toString collectionId ++ "-p" ++ toString partitionId

/-- The url of interval checkpoint `iter`. -/
def cpName (checkpointPath : String) (iter : Int) : String :=
  checkpointPath ++ "/cp-" ++ toString iter

/-- The file of a partition that `WriteManager::Write` names. -/
def writeUrl (url : String) (partitionId : Int) : String := url ++ "/part-" ++ toString partitionId

theorem cpUrl_eq (plan : Plan) (iter : Int) :
    ControlManager.cpUrl plan iter = cpName plan.checkpointPath iter := rfl

/-- Text is split in one way at the last occurrence of a character. -/
theorem split_last_inj {α : Type} {a : α} {l l' r r' : List α} (hr : a ∉ r) (hr' : a ∉ r')
    (h : l ++ a :: r = l' ++ a :: r') : l = l' ∧ r = r' := by
  rcases append_eq_append_iff.mp h with ⟨c, rfl, hc⟩ | ⟨c, rfl, hc⟩
  · cases c with
    | nil => exact ⟨(append_nil l).symm, (List.cons.inj hc).2⟩
    | cons b c =>
      rw [(List.cons.inj hc).2] at hr
      exact absurd (mem_append_right c mem_cons_self) hr
  · cases c with
    | nil => exact ⟨append_nil l', (List.cons.inj hc).2.symm⟩
    | cons b c =>
      rw [(List.cons.inj hc).2] at hr'
      exact absurd (mem_append_right c mem_cons_self) hr'

theorem mem_toString_int {n : Int} {ch : Char} (h : ch ∈ (toString n).toList) :
    ch.isDigit = true ∨ ch = '-' := by
  have hnat : ∀ k : Nat, ch ∈ k.repr.toList → ch.isDigit = true := by
    intro k hk
    rw [Nat.repr_eq_ofList_toDigits, String.toList_ofList] at hk
    exact Nat.isDigit_of_mem_toDigits (by decide) (le_refl 10) hk
  rw [Int.toString_eq_repr, Int.repr_eq_if] at h
  split at h
  · exact .inl (hnat _ h)
  · rw [String.toList_append, mem_append] at h
    rcases h with h | h
    · exact .inr (mem_singleton.mp h)
    · exact .inl (hnat _ h)

theorem notMem_toString_int (n : Int) {ch : Char} (hd : ch.isDigit = false) (hm : ch ≠ '-') :
    ch ∉ (toString n).toList := by
  intro h
  rcases mem_toString_int h with h | h
  · rw [hd] at h
    cases h
  · exact hm h

theorem toString_int_inj {m n : Int} (h : toString m = toString n) : m = n := by
  -- a minus sign in front is no digit, so both have the same sign
  have hsign : ∀ (i : Int) (k : Nat), k.repr ≠ "-" ++ (-i).toNat.repr := by
    intro i k hk
    have hmem : '-' ∈ k.repr.toList := by
      rw [hk, String.toList_append]
      exact mem_append_left _ (mem_singleton.mpr rfl)
    rw [Nat.repr_eq_ofList_toDigits, String.toList_ofList] at hmem
    exact absurd (Nat.isDigit_of_mem_toDigits (by decide) (le_refl 10) hmem) (by decide)
  have hnat : ∀ {k l : Nat}, k.repr = l.repr → k = l := by
    intro k l hk
    rw [Nat.repr_eq_ofList_toDigits, Nat.repr_eq_ofList_toDigits, String.ofList_inj] at hk
    rw [← Nat.ofDigitChars_ten_toDigits (n := k), hk, Nat.ofDigitChars_ten_toDigits]
  rw [Int.toString_eq_repr, Int.toString_eq_repr, Int.repr_eq_if, Int.repr_eq_if] at h
  split at h
  · split at h
    · have := hnat h
      omega
    · exact absurd h (hsign _ _)
  · split at h
    · exact absurd h.symm (hsign _ _)
    · have := hnat ((String.append_right_inj _).mp h)
      omega

/-- A file belongs to one partition of one checkpoint. -/
theorem getCheckpointUrl_inj {url url' : String} {c c' p p' : Int}
    (h : getCheckpointUrl url c p = getCheckpointUrl url' c' p') : url = url' ∧ c = c' ∧ p = p' := by
  have hlist := congrArg String.toList h
  simp only [getCheckpointUrl, String.toList_append, append_assoc] at hlist
  -- the last slash ends the url, the only `p` after it ends the collection
  have hslash : ∀ n k : Int, '/' ∉ 'c' :: ((toString n).toList ++ '-' :: 'p' :: (toString k).toList) := by
    intro n k
    have hno : ∀ m : Int, '/' ∉ (toString m).toList :=
      fun m => notMem_toString_int m (by decide) (by decide)
    simp only [mem_cons, mem_append, hno, or_false, false_or]
    decide
  obtain ⟨hu, hrest⟩ := split_last_inj (hslash c p) (hslash c' p') hlist
  have hp : ∀ n : Int, 'p' ∉ (toString n).toList :=
    fun n => notMem_toString_int n (by decide) (by decide)
  have hrest' : ((toString c).toList ++ ['-']) ++ 'p' :: (toString p).toList =
      ((toString c').toList ++ ['-']) ++ 'p' :: (toString p').toList := by
    simpa using hrest
  obtain ⟨hc, hp⟩ := split_last_inj (hp p) (hp p') hrest'
  exact ⟨String.toList_inj.mp hu,
    toString_int_inj (String.toList_inj.mp (append_cancel_right hc)),
    toString_int_inj (String.toList_inj.mp hp)⟩

theorem writeUrl_inj {url url' : String} {p p' : Int} (h : writeUrl url p = writeUrl url' p') :
    url = url' ∧ p = p' := by
  have hlist := congrArg String.toList h
  simp only [writeUrl, String.toList_append, append_assoc] at hlist
  have hslash : ∀ n : Int, '/' ∉ 'p' :: 'a' :: 'r' :: 't' :: '-' :: (toString n).toList := by
    intro n
    have hno := notMem_toString_int n (show Char.isDigit '/' = false by decide) (by decide)
    simp only [mem_cons, hno, or_false]
    decide
  obtain ⟨hu, hrest⟩ := split_last_inj (hslash p) (hslash p') hlist
  simp only [List.cons.injEq, true_and] at hrest
  exact ⟨String.toList_inj.mp hu, toString_int_inj (String.toList_inj.mp hrest)⟩

theorem cpName_inj {path : String} {k k' : Int} (h : cpName path k = cpName path k') : k = k' :=
  toString_int_inj ((String.append_right_inj _).mp h)

end Tangram
