import Mathlib

/-!
# Runs of a checked step function

A program is a step function `step : σ → α → Except ε σ`: one action from one
state, which may stop at a failed check.  A run is a list of actions; an
environment that may only take some actions in some states is a predicate
`ok : σ → α → Prop`.

    run step s as                    all the actions, or the first failed check
    Reach step ok s t                `t` is reached by steps that all meet `ok`

`Reach.induct` is the invariant rule every safety proof goes through, and
`reach_of_run` / `error_of_run` turn a concrete run into the two things it can
show: a reached state, or a check that fails in a reached state.
-/

namespace StepRun

variable {σ α ε β : Type} {x : Except ε α} {f : α → Except ε β} {e : ε} (l : List α)

/-! ## Checks -/

/-- `CHECK(p)`: stop with `e` unless `p` holds. -/
def check (e : ε) (p : Prop) [Decidable p] : Except ε Unit :=
  if p then .ok () else .error e

theorem bind_eq_ok {r : β} : (x >>= f) = .ok r ↔ ∃ a, x = .ok a ∧ f a = .ok r := by
  cases x with
  | error e => simp [Bind.bind, Except.bind]
  | ok a => simp [Bind.bind, Except.bind]

theorem bind_eq_error : (x >>= f) = .error e ↔ x = .error e ∨ ∃ a, x = .ok a ∧ f a = .error e := by
  cases x with
  | error e => simp [Bind.bind, Except.bind]
  | ok a => simp [Bind.bind, Except.bind]

theorem mapError_eq_ok {ε' : Type} {f : ε → ε'} {a : α} : x.mapError f = .ok a ↔ x = .ok a := by
  cases x <;> simp [Except.mapError]

theorem mapError_eq_error {ε' : Type} {f : ε → ε'} {e : ε'} :
    x.mapError f = .error e ↔ ∃ e₀, x = .error e₀ ∧ f e₀ = e := by
  cases x <;> simp [Except.mapError]

/-- What every turn of a checked loop keeps, the loop keeps. -/
theorem foldlM_induct {P : σ → Prop} {f : σ → α → Except ε σ} {s t : σ} (h0 : P s)
    (hf : ∀ s a t, a ∈ l → P s → f s a = .ok t → P t) (h : l.foldlM f s = .ok t) : P t := by
  induction l generalizing s with
  | nil =>
    cases h
    exact h0
  | cons a l ih =>
    rw [List.foldlM_cons] at h
    obtain ⟨s₁, h₁, h⟩ := bind_eq_ok.mp h
    exact ih (hf s a s₁ List.mem_cons_self h0 h₁)
      (fun s b t hb => hf s b t (List.mem_cons_of_mem _ hb)) h

/-- A checked loop stops in one of its turns. -/
theorem foldlM_error {f : σ → α → Except ε σ} {s : σ} (h : l.foldlM f s = .error e) :
    ∃ t, ∃ a ∈ l, f t a = .error e := by
  induction l generalizing s with
  | nil => cases h
  | cons a l ih =>
    rw [List.foldlM_cons] at h
    rcases bind_eq_error.mp h with h | ⟨s₁, -, h⟩
    · exact ⟨s, a, List.mem_cons_self, h⟩
    · obtain ⟨t, b, hb, he⟩ := ih h
      exact ⟨t, b, List.mem_cons_of_mem _ hb, he⟩

/-- A checked loop that never stops is a map. -/
theorem mapM_ok {g : α → β} (h : ∀ a ∈ l, f a = .ok (g a)) : l.mapM f = .ok (l.map g) := by
  induction l with
  | nil => rfl
  | cons a l ih =>
    rw [List.mapM_cons, h a List.mem_cons_self, ih fun b hb => h b (List.mem_cons_of_mem _ hb)]
    rfl

theorem check_pos {p : Prop} [Decidable p] (h : p) : check e p = .ok () := if_pos h

@[simp] theorem check_eq_ok {p : Prop} [Decidable p] {u : Unit} : check e p = .ok u ↔ p := by
  unfold check; split <;> simp_all

@[simp] theorem check_eq_error {e e' : ε} {p : Prop} [Decidable p] :
    check e p = .error e' ↔ ¬ p ∧ e = e' := by
  unfold check; split <;> simp_all

/-! ## Runs -/

/-- All the actions of a list, one after the other. -/
def run (step : σ → α → Except ε σ) : σ → List α → Except ε σ
  | s, [] => .ok s
  | s, a :: as =>
    match step s a with
    | .ok t => run step t as
    | .error e => .error e

/-- `t` is reached from `s` by steps that all meet `ok`. -/
inductive Reach (step : σ → α → Except ε σ) (ok : σ → α → Prop) (s : σ) : σ → Prop
  | refl : Reach step ok s s
  | tail {t u : σ} {a : α} : Reach step ok s t → ok t a → step t a = .ok u → Reach step ok s u

variable {step : σ → α → Except ε σ} {ok ok' : σ → α → Prop} {s t u : σ} (as : List α)

/-- **The invariant rule.**  What holds at the start and is kept by every allowed step
holds in every reached state; the step may use that its source is itself reached. -/
theorem Reach.induct {P : σ → Prop} (h : Reach step ok s t) (h0 : P s)
    (hs : ∀ t a u, Reach step ok s t → P t → ok t a → step t a = .ok u → P u) : P t := by
  induction h with
  | refl => exact h0
  | tail hr ha hstep ih => exact hs _ _ _ hr ih ha hstep

theorem Reach.mono (h : Reach step ok s t) (hm : ∀ t a, ok t a → ok' t a) :
    Reach step ok' s t := by
  induction h with
  | refl => exact .refl
  | tail _ ha hstep ih => exact .tail ih (hm _ _ ha) hstep

theorem Reach.trans (h : Reach step ok s t) (h' : Reach step ok t u) : Reach step ok s u := by
  induction h' with
  | refl => exact h
  | tail _ ha hstep ih => exact .tail ih ha hstep

/-- Every action of the list meets `ok` in the state it is taken in. -/
def RunOk (step : σ → α → Except ε σ) (ok : σ → α → Prop) : σ → List α → Prop
  | _, [] => True
  | s, a :: as => ok s a ∧ ∀ t, step s a = .ok t → RunOk step ok t as

instance RunOk.decidable [∀ s a, Decidable (ok s a)] :
    ∀ (s : σ) (as : List α), Decidable (RunOk step ok s as)
  | _, [] => .isTrue trivial
  | s, a :: as =>
    match h : step s a with
    | .error _ => decidable_of_iff (ok s a) ⟨fun ha => ⟨ha, by simp [h]⟩, And.left⟩
    | .ok t =>
      have := RunOk.decidable t as
      decidable_of_iff (ok s a ∧ RunOk step ok t as)
        ⟨fun ha => ⟨ha.1, fun u hu => by cases h.symm.trans hu; exact ha.2⟩,
          fun ha => ⟨ha.1, ha.2 t h⟩⟩

/-- The run passes all its checks and ends in a state with `p`. -/
def Ends (step : σ → α → Except ε σ) (s : σ) (as : List α) (p : σ → Prop) : Prop :=
  ∃ t, run step s as = .ok t ∧ p t

instance Ends.decidable {p : σ → Prop} [DecidablePred p] (as : List α) :
    Decidable (Ends step s as p) :=
  match h : run step s as with
  | .error _ => .isFalse fun ⟨_, ht, _⟩ => by cases h.symm.trans ht
  | .ok t => decidable_of_iff (p t)
      ⟨fun hp => ⟨t, h, hp⟩, fun ⟨u, hu, hp⟩ => by cases h.symm.trans hu; exact hp⟩

instance decidableEqError [DecidableEq ε] (r : Except ε σ) (e : ε) : Decidable (r = .error e) :=
  match r with
  | .error e' => decidable_of_iff (e' = e) ⟨fun h => by rw [h], Except.error.inj⟩
  | .ok _ => .isFalse fun h => by cases h

theorem run_cons_ok {a : α} {as : List α} :
    run step s (a :: as) = .ok u ↔ ∃ t, step s a = .ok t ∧ run step t as = .ok u := by
  simp only [run]
  cases step s a <;> simp

theorem run_append_ok {as bs : List α} :
    run step s (as ++ bs) = .ok u ↔ ∃ t, run step s as = .ok t ∧ run step t bs = .ok u := by
  induction as generalizing s with
  | nil => simp [run]
  | cons a as ih =>
    rw [List.cons_append, run_cons_ok]
    constructor
    · rintro ⟨t, ht, hr⟩
      obtain ⟨v, hv, hu⟩ := ih.mp hr
      exact ⟨v, run_cons_ok.mpr ⟨t, ht, hv⟩, hu⟩
    · rintro ⟨v, hv, hu⟩
      obtain ⟨t, ht, hr⟩ := run_cons_ok.mp hv
      exact ⟨t, ht, ih.mpr ⟨v, hr, hu⟩⟩

theorem reach_of_run_ok (h : RunOk step ok s as) (hr : run step s as = .ok t) :
    Reach step ok s t := by
  induction as generalizing s with
  | nil =>
    simp only [run, Except.ok.injEq] at hr
    subst hr
    exact .refl
  | cons a as ih =>
    obtain ⟨v, hv, hrest⟩ := run_cons_ok.mp hr
    exact Reach.trans (.tail .refl h.1 hv) (ih (h.2 v hv) hrest)

theorem runOk_true : RunOk step (fun _ _ => True) s as := by
  induction as generalizing s with
  | nil => trivial
  | cons a as ih => exact ⟨trivial, fun t _ => ih⟩

/-- A run of an unrestricted environment reaches its last state. -/
theorem reach_of_run (hr : run step s as = .ok t) : Reach step (fun _ _ => True) s t :=
  reach_of_run_ok as (runOk_true as) hr

/-- A run that stops, stops at a check that fails in a reached state. -/
theorem error_of_run (hr : run step s as = .error e) :
    ∃ t a, Reach step (fun _ _ => True) s t ∧ step t a = .error e := by
  induction as generalizing s with
  | nil => simp [run] at hr
  | cons a as ih =>
    unfold run at hr
    cases hs : step s a with
    | error e' =>
      rw [hs] at hr
      simp only [Except.error.injEq] at hr
      subst hr
      exact ⟨s, a, .refl, hs⟩
    | ok v =>
      rw [hs] at hr
      obtain ⟨t, b, hreach, hb⟩ := ih hr
      exact ⟨t, b, Reach.trans (.tail .refl trivial hs) hreach, hb⟩

end StepRun
