import Tangram.Lib.Codec

/-!
# Map output

What a map emits for one update partition is a buffer of keyed messages
(`core/map_output/map_output_stream.hpp`, `partitioned_map_output.hpp`).  On its
way to the partition a buffer may be concatenated with others, sorted, combined
and serialised.  What counts in the end are, for each key, its messages in
order:

    msgsOf k (combineOneBuffer c l)   acts on every object as   msgsOf k l does
-/

namespace Tangram

variable {K M O : Type}

/-! ## Output and streams -/

section Output

variable [DecidableEq K]

/-- The buffers of an `Output`, one for each update partition: `Add` puts a message into the
buffer of the part of its key. -/
def outputBuffer (mapper : K → Int) (out : List (K × M)) (p : Int) : List (K × M) :=
  out.filter fun x => mapper x.1 = p

/-- The loop of `CombineOneBuffer`: `cur` is `buffer[l]`, the list is `buffer[r..]`. -/
def combineLoop (combine : M → M → M) : K × M → List (K × M) → List (K × M)
  | cur, [] => [cur]
  | cur, x :: rest =>
    if cur.1 = x.1 then combineLoop combine (cur.1, combine cur.2 x.2) rest
    else cur :: combineLoop combine x rest

def combineOneBuffer (combine : M → M → M) : List (K × M) → List (K × M)
  | [] => []
  | x :: rest => combineLoop combine x rest

/-- `MapOutputStream::Combine`; `sort` is `std::sort` by the keys. -/
def combineStream (sort : List (K × M) → List (K × M)) (combine : Option (M → M → M))
    (buffer : List (K × M)) : List (K × M) :=
  match combine with
  | none => buffer
  | some c => combineOneBuffer c (sort buffer)

end Output

/-! ## The messages of a key -/

section Messages

variable [DecidableEq K] {combine : M → M → M}

def msgsOf (k : K) (l : List (K × M)) : List M :=
  l.filterMap fun x => if x.1 = k then some x.2 else none

@[simp] theorem msgsOf_nil (k : K) : msgsOf k ([] : List (K × M)) = [] := rfl

theorem msgsOf_cons (k : K) (x : K × M) (l : List (K × M)) :
    msgsOf k (x :: l) = if x.1 = k then x.2 :: msgsOf k l else msgsOf k l := by
  unfold msgsOf
  rw [List.filterMap_cons]
  split_ifs <;> rfl

theorem msgsOf_append (k : K) (l l' : List (K × M)) :
    msgsOf k (l ++ l') = msgsOf k l ++ msgsOf k l' := List.filterMap_append

theorem mem_msgsOf {k : K} {m : M} {l : List (K × M)} : m ∈ msgsOf k l ↔ (k, m) ∈ l := by
  unfold msgsOf
  rw [List.mem_filterMap]
  constructor
  · rintro ⟨⟨k', m'⟩, hx, h⟩
    split at h
    · next hk =>
      cases h
      exact hk ▸ hx
    · cases h
  · intro hx
    exact ⟨(k, m), hx, by simp⟩

theorem msgsOf_outputBuffer (mapper : K → Int) (out : List (K × M)) (p : Int) (k : K) :
    msgsOf k (outputBuffer mapper out p) = if mapper k = p then msgsOf k out else [] := by
  induction out with
  | nil => simp [outputBuffer]
  | cons x out ih =>
    unfold outputBuffer at ih ⊢
    rw [List.filter_cons, msgsOf_cons]
    by_cases hx : x.1 = k
    · rw [← hx] at ih ⊢
      by_cases hp : mapper x.1 = p
      · simp only [hp, if_true, decide_true] at ih ⊢
        rw [msgsOf_cons, if_pos rfl, ih]
      · simp only [hp, if_false, decide_false, Bool.false_eq_true] at ih ⊢
        exact ih
    · rw [if_neg hx, ← ih]
      split
      · rw [msgsOf_cons, if_neg hx]
      · rfl

/-- Combining does not change what the messages of a key do, one after the other. -/
theorem foldl_combineLoop {update : O → M → O}
    (hc : ∀ o a b, update (update o a) b = update o (combine a b)) (k : K) (l : List (K × M))
    (cur : K × M) (o : O) :
    (msgsOf k (combineLoop combine cur l)).foldl update o =
      (msgsOf k (cur :: l)).foldl update o := by
  induction l generalizing cur o with
  | nil => rfl
  | cons x l ih =>
    unfold combineLoop
    split
    · next he =>
      rw [ih]
      simp only [msgsOf_cons, ← he]
      by_cases hk : cur.1 = k
      · simp only [hk, if_true, List.foldl_cons, hc]
      · simp only [hk, if_false]
    · rw [msgsOf_cons, msgsOf_cons]
      split
      · rw [List.foldl_cons, List.foldl_cons, ih]
      · exact ih x o

theorem msgsOf_combineLoop_eq_nil (k : K) (l : List (K × M)) (cur : K × M) :
    msgsOf k (combineLoop combine cur l) = [] ↔ msgsOf k (cur :: l) = [] := by
  induction l generalizing cur with
  | nil => exact Iff.rfl
  | cons x l ih =>
    unfold combineLoop
    split
    · next he =>
      rw [ih, msgsOf_cons, msgsOf_cons, msgsOf_cons, ← he]
      by_cases hk : cur.1 = k <;> simp [hk]
    · rw [msgsOf_cons, msgsOf_cons]
      split
      · simp
      · exact ih x

end Messages

/-! ## What a buffer stands for -/

section Stands

variable [DecidableEq K]

/-- The buffer `l` acts on the object of every key as the messages of `orig` do in some order. -/
def StandsFor (update : O → M → O) (l orig : List (K × M)) : Prop :=
  ∀ k, ∃ ms, ms.Perm (msgsOf k orig) ∧ (msgsOf k l = [] ↔ ms = []) ∧
    ∀ o, (msgsOf k l).foldl update o = ms.foldl update o

variable {update : O → M → O}

theorem StandsFor.refl (l : List (K × M)) : StandsFor update l l := fun k =>
  ⟨msgsOf k l, List.Perm.refl _, Iff.rfl, fun _ => rfl⟩

theorem StandsFor.combine {sort : List (K × M) → List (K × M)} (hsort : ∀ l, (sort l).Perm l)
    {combine : Option (M → M → M)}
    (hc : ∀ c ∈ combine, ∀ o a b, update (update o a) b = update o (c a b)) (l : List (K × M)) :
    StandsFor update (combineStream sort combine l) l := by
  cases combine with
  | none => exact .refl l
  | some c =>
    intro k
    refine ⟨msgsOf k (sort l), (hsort l).filterMap _, ?_⟩
    simp only [combineStream]
    cases sort l with
    | nil => exact ⟨Iff.rfl, fun _ => rfl⟩
    | cons x rest =>
      exact ⟨msgsOf_combineLoop_eq_nil k rest x,
        fun o => foldl_combineLoop (hc c rfl) k rest x o⟩

end Stands

end Tangram
