import Tangram.Cache.TypedCache

/-!
# Combining a buffer in place

`MapOutputStream::CombineOneBuffer` and `Combine` (`core/map_output/map_output_stream.hpp`).
Two indices of type `int` walk over one vector: what is behind `l` is done, `buffer[l]` is the
entry in the making, and the entries from `r` on are still to come.  What lies between them
has been taken in already and may have been overwritten:

    buffer  =  done ++ buffer[l] :: junk ++ rest,      |done| = l,   |done| + 1 + |junk| = r

so the loop is the one of `combineLoop`, as long as `r` can be counted up to the size.
-/

namespace Tangram

open StepRun List

namespace MapOutputStream

inductive Check
  | overflow | bounds
deriving DecidableEq, Repr

variable {K M : Type}

section Model

variable [DecidableEq K]

/-- One turn: the vector and `l` after it. -/
def combineAt (combine : M → M → M) (l r : Nat) (buffer : List (K × M)) :
    Except Check (Nat × List (K × M)) :=
  match buffer[l]?, buffer[r]? with
  | some x, some y =>
    if x.1 = y.1 then .ok (l, buffer.set l (x.1, combine x.2 y.2))
    else .ok (l + 1, if l + 1 ≠ r then buffer.set (l + 1) y else buffer)
  | _, _ => .error .bounds

/-- `for (int r = ...; r < buffer.size(); ++r)`, where `n` turns are left. -/
def combineRange (combine : M → M → M) :
    Nat → Nat → Nat → List (K × M) → Except Check (Nat × List (K × M))
  | 0, l, _, buffer => .ok (l, buffer)
  | n + 1, l, r, buffer => do
    let (l, buffer) ← combineAt combine l r buffer
    check .overflow (r + 1 < 2 ^ 31)
    combineRange combine n l (r + 1) buffer

def combineOneBuffer (combine : M → M → M) (buffer : List (K × M)) :
    Except Check (List (K × M)) := do
  let (l, buffer) ← combineRange combine (buffer.length - 1) 0 1 buffer
  return if buffer.isEmpty then buffer else buffer.take (l + 1)

/-- `Combine`; `sort` is `std::sort` by the keys. -/
def combine (sort : List (K × M) → List (K × M)) (combineFunc : Option (M → M → M))
    (buffer : List (K × M)) : Except Check (List (K × M)) :=
  match combineFunc with
  | none => .ok buffer
  | some c => combineOneBuffer c (sort buffer)

end Model

/-! ## The loop -/

section Loop

variable [DecidableEq K] {c : M → M → M}

theorem combineAt_split (done junk rest : List (K × M)) (cur x : K × M) :
    ∃ done' cur' junk', combineAt c done.length (done.length + 1 + junk.length)
        (done ++ cur :: (junk ++ x :: rest)) =
          .ok (done'.length, done' ++ cur' :: (junk' ++ rest)) ∧
      done'.length + 1 + junk'.length = done.length + 1 + junk.length + 1 ∧
      done ++ combineLoop c cur (x :: rest) = done' ++ combineLoop c cur' rest := by
  have hl : (done ++ cur :: (junk ++ x :: rest))[done.length]? = some cur := by simp
  have hr : (done ++ cur :: (junk ++ x :: rest))[done.length + 1 + junk.length]? = some x := by
    rw [Nat.add_assoc, getElem?_append_right (Nat.le_add_right _ _), Nat.add_sub_cancel_left,
      Nat.add_comm 1, getElem?_cons_succ, getElem?_append_right (Nat.le_refl _),
      Nat.sub_self, getElem?_cons_zero]
  unfold combineAt
  rw [hl, hr, combineLoop]
  dsimp only
  by_cases hkey : cur.1 = x.1
  · refine ⟨done, (cur.1, c cur.2 x.2), junk ++ [x], ?_, ?_, ?_⟩
    · simp [hkey]
    · simp; omega
    · rw [if_pos hkey]
  · -- what is overwritten by `buffer[r]` has been taken in
    have hloop : done ++ (cur :: combineLoop c x rest) = (done ++ [cur]) ++ combineLoop c x rest :=
      append_cons _ _ _
    rw [if_neg hkey, if_neg hkey, hloop]
    cases junk with
    | nil => exact ⟨done ++ [cur], x, [], by simp, by simp, rfl⟩
    | cons j junk => exact ⟨done ++ [cur], x, junk ++ [x], by simp, by simp; omega, rfl⟩

/-- The loop by what is done, in the making, and still to come. -/
theorem combineRange_split (rest done junk : List (K × M)) (cur : K × M) {r : Nat}
    (hr : done.length + 1 + junk.length = r) :
    (r + rest.length < 2 ^ 31 → ∃ l buffer, combineRange c rest.length done.length r
        (done ++ cur :: (junk ++ rest)) = .ok (l, buffer) ∧ buffer ≠ [] ∧
        buffer.take (l + 1) = done ++ combineLoop c cur rest) ∧
    (r < 2 ^ 31 → 2 ^ 31 ≤ r + rest.length → combineRange c rest.length done.length r
      (done ++ cur :: (junk ++ rest)) = .error .overflow) := by
  induction rest generalizing done junk cur r with
  | nil =>
    refine ⟨fun _ => ⟨_, _, rfl, by simp, ?_⟩, fun hlt hle => absurd hlt (Nat.not_lt.mpr hle)⟩
    simp [combineLoop, take_append]
  | cons x rest ih =>
    obtain ⟨done', cur', junk', hat, hlen, hloop⟩ := combineAt_split (c := c) done junk rest cur x
    rw [hr] at hat hlen
    obtain ⟨hok, herr⟩ := ih done' junk' cur' hlen
    rw [hloop, length_cons, combineRange, hat]
    constructor
    · intro hlt
      show ∃ l buffer, (check _ _ >>= fun _ => combineRange c rest.length done'.length (r + 1) _) = _ ∧ _
      rw [check_pos (by omega)]
      exact hok (by omega)
    · intro hlt hle
      show (check _ _ >>= fun _ => combineRange c rest.length done'.length (r + 1) _) = _
      by_cases hend : r + 1 < 2 ^ 31
      · rw [check_pos hend]
        exact herr hend (by omega)
      · exact bind_eq_error.mpr (.inl (check_eq_error.mpr ⟨hend, rfl⟩))

/-- **The loop in place.**  It is `combineOneBuffer` where an `int` can count to the size. -/
theorem combineOneBuffer_eq (buffer : List (K × M)) :
    combineOneBuffer c buffer =
      if buffer.length < 2 ^ 31 then .ok (Tangram.combineOneBuffer c buffer)
      else .error .overflow := by
  cases buffer with
  | nil => rfl
  | cons x rest =>
    obtain ⟨hok, herr⟩ := combineRange_split (c := c) rest [] [] x rfl
    show (combineRange c rest.length 0 1 (x :: rest) >>= _) = _
    rw [length_cons]
    split
    · obtain ⟨l, buffer, hrun, hne, htake⟩ := hok (by simp; omega)
      refine bind_eq_ok.mpr ⟨_, hrun, ?_⟩
      dsimp only
      rw [if_neg (by simpa using hne), htake]
      rfl
    · exact bind_eq_error.mpr (.inl (herr (by simp) (by simp; omega)))

end Loop

/-! ## Runs of equal keys -/

section Runs

variable {c : M → M → M}

/-- The entry for a run: its key, and its messages from left to right. -/
def foldRun (c : M → M → M) : List (K × M) → Option (K × M)
  | [] => none
  | x :: run => some (x.1, (run.map Prod.snd).foldl c x.2)

theorem foldRun_concat {run : List (K × M)} {cur x : K × M} (h : foldRun c run = some cur) :
    foldRun c (run ++ [x]) = some (cur.1, c cur.2 x.2) := by
  cases run with
  | nil => cases h
  | cons y run =>
    cases h
    simp [foldRun]

variable [DecidableEq K]

/-- The runs that `splitBy` has collected, the one it is in, and the loop on what is left. -/
theorem splitBy_loop_foldRun (l : List (K × M)) (a cur : K × M) (g : List (K × M))
    (gs : List (List (K × M))) (hcur : foldRun c (a :: g).reverse = some cur) (hkey : cur.1 = a.1) :
    (List.splitBy.loop (fun x y => x.1 == y.1) l a g gs).filterMap (foldRun c) =
      gs.reverse.filterMap (foldRun c) ++ combineLoop c cur l := by
  induction l generalizing a cur g gs with
  | nil =>
    rw [List.splitBy.loop, reverse_cons, filterMap_append, filterMap_cons_some hcur]
    rfl
  | cons x l ih =>
    rw [List.splitBy.loop, combineLoop, hkey]
    by_cases hx : a.1 = x.1
    · rw [if_pos hx, beq_iff_eq.mpr hx]
      refine ih x _ (a :: g) gs ?_ hx
      rw [reverse_cons, foldRun_concat hcur, hkey]
    · rw [if_neg hx, beq_eq_false_iff_ne.mpr hx]
      dsimp only
      rw [ih x x [] _ rfl rfl, reverse_cons, filterMap_append,
        filterMap_cons_some hcur, append_assoc]
      rfl

theorem combineOneBuffer_splitBy (buffer : List (K × M)) :
    Tangram.combineOneBuffer c buffer =
      (buffer.splitBy fun x y => x.1 == y.1).filterMap (foldRun c) := by
  cases buffer with
  | nil => rfl
  | cons x rest => exact (splitBy_loop_foldRun rest x x [] [] rfl rfl).symm

end Runs

/-! ## Sorted buffers -/

section Sorted

variable [LinearOrder K] {c : M → M → M} {sort : List (K × M) → List (K × M)} {l : List (K × M)}

theorem msgsOf_eq_nil_iff {k : K} : msgsOf k l = [] ↔ k ∉ l.map Prod.fst := by
  rw [eq_nil_iff_forall_not_mem]
  constructor
  · intro h hk
    obtain ⟨⟨_, m⟩, hx, rfl⟩ := mem_map.mp hk
    exact h m (mem_msgsOf.mpr hx)
  · exact fun h m hm => h (mem_map_of_mem (mem_msgsOf.mp hm))

theorem keys_combineOneBuffer (k : K) (l : List (K × M)) :
    k ∈ (Tangram.combineOneBuffer c l).map Prod.fst ↔ k ∈ l.map Prod.fst := by
  cases l with
  | nil => exact Iff.rfl
  | cons x l => exact not_iff_not.mp (by
      rw [← msgsOf_eq_nil_iff, ← msgsOf_eq_nil_iff]
      exact msgsOf_combineLoop_eq_nil k l x)

/-- In a sorted buffer every key has one run. -/
theorem combineLoop_sorted (l : List (K × M)) (cur : K × M)
    (h : (cur :: l).Pairwise fun x y => x.1 ≤ y.1) :
    (combineLoop c cur l).Pairwise (fun x y => x.1 < y.1) ∧
    ∀ x ∈ combineLoop c cur l, ∃ m ms, msgsOf x.1 (cur :: l) = m :: ms ∧ x.2 = ms.foldl c m := by
  induction l generalizing cur with
  | nil =>
    refine ⟨pairwise_singleton _ _, fun x hx => ?_⟩
    cases mem_singleton.mp hx
    exact ⟨cur.2, [], by rw [msgsOf_cons, if_pos rfl]; rfl, rfl⟩
  | cons x l ih =>
    obtain ⟨hcur, hl⟩ := pairwise_cons.mp h
    obtain ⟨hx, hl'⟩ := pairwise_cons.mp hl
    rw [combineLoop]
    split
    next hkey =>
      obtain ⟨hlt, hfold⟩ := ih (cur.1, c cur.2 x.2)
        (pairwise_cons.mpr ⟨fun y hy => hcur y (mem_cons_of_mem _ hy), hl'⟩)
      refine ⟨hlt, fun y hy => ?_⟩
      obtain ⟨m, ms, hmsgs, hm⟩ := hfold y hy
      rw [msgsOf_cons] at hmsgs
      rw [msgsOf_cons, msgsOf_cons, ← hkey]
      by_cases hk : cur.1 = y.1
      · rw [if_pos hk] at hmsgs
        cases hmsgs
        exact ⟨cur.2, x.2 :: _, by rw [if_pos hk, if_pos hk], hm⟩
      · rw [if_neg hk] at hmsgs ⊢
        exact ⟨m, ms, by rw [if_neg hk, hmsgs], hm⟩
    next hkey =>
      obtain ⟨hlt, hfold⟩ := ih x hl
      -- the keys that follow are greater
      have hgt : ∀ k ∈ (x :: l).map Prod.fst, cur.1 < k := by
        have hcx : cur.1 < x.1 := lt_of_le_of_ne (hcur x mem_cons_self) hkey
        rintro _ hk
        obtain ⟨y, hy, rfl⟩ := mem_map.mp hk
        rcases mem_cons.mp hy with rfl | hy
        · exact hcx
        · exact lt_of_lt_of_le hcx (hx y hy)
      have hkeys : ∀ y ∈ combineLoop c x l, cur.1 < y.1 := fun y hy =>
        hgt _ ((keys_combineOneBuffer (c := c) y.1 (x :: l)).mp (mem_map_of_mem hy))
      refine ⟨pairwise_cons.mpr ⟨hkeys, hlt⟩, fun y hy => ?_⟩
      rw [msgsOf_cons]
      rcases mem_cons.mp hy with rfl | hy
      · refine ⟨y.2, [], ?_, rfl⟩
        rw [if_pos rfl, msgsOf_eq_nil_iff.mpr fun hk => lt_irrefl _ (hgt _ hk)]
      · rw [if_neg (hkeys y hy).ne]
        exact hfold y hy

theorem combineOneBuffer_sorted (h : l.Pairwise fun x y => x.1 ≤ y.1) :
    (Tangram.combineOneBuffer c l).Pairwise (fun x y => x.1 < y.1) ∧
    ∀ x ∈ Tangram.combineOneBuffer c l, ∃ m ms, msgsOf x.1 l = m :: ms ∧ x.2 = ms.foldl c m := by
  cases l with
  | nil => exact ⟨.nil, nofun⟩
  | cons x l => exact combineLoop_sorted l x h

theorem combineOneBuffer_of_lt (h : l.Pairwise fun x y => x.1 < y.1) :
    Tangram.combineOneBuffer c l = l := by
  cases l with
  | nil => rfl
  | cons cur l =>
    show combineLoop c cur l = cur :: l
    induction l generalizing cur with
    | nil => rfl
    | cons x l ih =>
      obtain ⟨hcur, hl⟩ := pairwise_cons.mp h
      rw [combineLoop, if_neg (hcur x mem_cons_self).ne, ih x hl]

/-- There is one way to sort entries with different keys. -/
theorem sort_eq_self (hsort : TypedCache.Sorts Prod.fst sort) {l : List (K × M)}
    (h : l.Pairwise fun x y => x.1 < y.1) : sort l = l := by
  have hnodup : (l.map Prod.fst).Nodup := pairwise_map.mpr (h.imp ne_of_lt)
  refine (hsort l).1.eq_of_pairwise (fun x y hx hy hxy hyx => ?_) (hsort l).2 (h.imp le_of_lt)
  exact inj_on_of_nodup_map hnodup ((hsort l).1.mem_iff.mp hx) hy (le_antisymm hxy hyx)

/-- What `Combine` makes of a buffer. -/
structure Combined (sort : List (K × M) → List (K × M)) (c : M → M → M)
    (buffer out : List (K × M)) : Prop where
  sorted : out.Pairwise fun x y => x.1 < y.1
  keys : ∀ k, k ∈ out.map Prod.fst ↔ k ∈ buffer.map Prod.fst
  folds : ∀ x ∈ out, ∃ m ms, (m :: ms).Perm (msgsOf x.1 buffer) ∧ x.2 = ms.foldl c m
  idem : combine sort (some c) out = .ok out

/-- What `CombineOneBuffer` and `Combine` are for. -/
structure Combines (sort : List (K × M) → List (K × M)) (c : M → M → M) (buffer : List (K × M)) :
    Prop where
  runs : combineOneBuffer c buffer =
    .ok ((buffer.splitBy fun x y => x.1 == y.1).filterMap (foldRun c))
  stream : ∃ out, combine sort (some c) buffer = .ok out ∧ Combined sort c buffer out
  unset : combine sort none buffer = .ok buffer

theorem combine_some (hsort : TypedCache.Sorts Prod.fst sort) {buffer : List (K × M)}
    (hlen : buffer.length < 2 ^ 31) :
    combine sort (some c) buffer = .ok (Tangram.combineOneBuffer c (sort buffer)) :=
  (combineOneBuffer_eq _).trans (if_pos ((hsort buffer).1.length_eq ▸ hlen))

theorem length_combineOneBuffer (l : List (K × M)) :
    (Tangram.combineOneBuffer c l).length ≤ l.length := by
  cases l with
  | nil => exact Nat.le_refl 0
  | cons cur l =>
    show (combineLoop c cur l).length ≤ l.length + 1
    induction l generalizing cur with
    | nil => exact Nat.le_refl 1
    | cons x l ih =>
      rw [combineLoop, length_cons]
      split
      · exact Nat.le_succ_of_le (ih _)
      · exact Nat.succ_le_succ (ih _)

theorem combined (hsort : TypedCache.Sorts Prod.fst sort) {buffer : List (K × M)}
    (hlen : buffer.length < 2 ^ 31) :
    Combined sort c buffer (Tangram.combineOneBuffer c (sort buffer)) := by
  obtain ⟨hperm, hsorted⟩ := hsort buffer
  obtain ⟨hlt, hfold⟩ := combineOneBuffer_sorted (c := c) hsorted
  refine ⟨hlt, fun k => ?_, fun y hy => ?_, ?_⟩
  · exact (keys_combineOneBuffer k _).trans (hperm.map Prod.fst).mem_iff
  · obtain ⟨m, ms, heq, hm⟩ := hfold y hy
    exact ⟨m, ms, heq ▸ hperm.filterMap _, hm⟩
  · have hle := length_combineOneBuffer (c := c) (sort buffer)
    rw [hperm.length_eq] at hle
    rw [combine_some hsort (by omega), sort_eq_self hsort hlt, combineOneBuffer_of_lt hlt]

end Sorted

/-- **Combining a buffer.**  `CombineOneBuffer` leaves the fold of each run of equal keys, and
`Combine` a sorted buffer with a fold for each key, exactly for buffers of fewer than
`2 ^ 31` entries. -/
theorem combines_iff [LinearOrder K] (sort : List (K × M) → List (K × M))
    (hsort : TypedCache.Sorts Prod.fst sort) (c : M → M → M) (buffer : List (K × M)) :
    Combines sort c buffer ↔ buffer.length < 2 ^ 31 := by
  constructor
  · intro h
    by_contra hlen
    have := h.runs
    rw [combineOneBuffer_eq, if_neg hlen] at this
    cases this
  · intro hlen
    refine ⟨?_, ⟨_, combine_some hsort hlen, combined hsort hlen⟩, rfl⟩
    rw [combineOneBuffer_eq, if_pos hlen, combineOneBuffer_splitBy]

theorem combines_iff_sum : Combines (fun l => l.mergeSort fun a b => a.1 ≤ b.1) (· + ·)
    [(3, 1), (2, 1), (2, 1), (3, 3), ((3 : Nat), (2 : Nat))] :=
  (combines_iff _ (TypedCache.sorts_mergeSort Prod.fst) _ _).mpr (by decide)

/-- With one entry more than an `int` can count, `++r` overflows before the last one. -/
theorem combines_overflow : ¬ Combines (fun l => l.mergeSort fun a b => a.1 ≤ b.1) (· + ·)
    (List.replicate (2 ^ 31 + 1) ((0 : Nat), (1 : Nat))) := by
  intro h
  have := h.runs
  rw [combineOneBuffer_eq, if_neg (by rw [length_replicate]; decide)] at this
  cases this

end MapOutputStream

end Tangram
