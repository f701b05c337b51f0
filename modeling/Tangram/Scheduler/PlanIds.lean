import Tangram.Lib.Words
import Tangram.Scheduler.Recovery

/-!
# Ids of plans

`Store::make` numbers the plans of a program, `GetRecoverPlanId` moves the id of a plan that is
launched again up by `kRecoverMagic`, and `GetRealId` undoes this in the scheduler
(`kFinishPlan`) and in every task of a worker, which looks up the functions that the plan has
registered (`core/plan/function_store.cpp`, `PlanController::RunMap`, `RunJoin`).  Nothing keeps
the two kinds of ids apart but the size of the program.
-/

namespace Tangram

open StepRun Words

/-! ## Functions of plans -/

/-- `maps_`, `mapwiths_`, `updates_` and `updates2_` of the `FunctionStore`. -/
inductive FunctionTable
  | map | mapWith | join | join2
deriving DecidableEq, Repr

variable {F : Type}

def FunctionStore (F : Type) : Type := FunctionTable → Int → Option F

namespace FunctionStore

def empty : FunctionStore F := fun _ _ => none

/-- `AddMap`, `AddMapWith`, `AddJoin` and `AddJoin2`: `insert` keeps what is there. -/
def add (s : FunctionStore F) (t : FunctionTable) (id : Int) (func : F) : FunctionStore F :=
  fun t' id' => if t' = t ∧ id' = id then some ((s t id).getD func) else s t' id'

end FunctionStore

/-- What a plan registers. -/
inductive PlanFunctions (F : Type)
  | mapPartJoin (map join join2 : F)
  | mapPartWithJoin (mapWith join join2 : F)
  | none

namespace PlanFunctions

/-- `Register` of the class of the plan. -/
def register (id : Int) (s : FunctionStore F) : PlanFunctions F → FunctionStore F
  | mapPartJoin map join join2 => ((s.add .map id map).add .join id join).add .join2 id join2
  | mapPartWithJoin mapWith join join2 =>
    ((s.add .mapWith id mapWith).add .join id join).add .join2 id join2
  | none => s

def get : PlanFunctions F → FunctionTable → Option F
  | mapPartJoin map _ _, .map => map
  | mapPartWithJoin mapWith _ _, .mapWith => mapWith
  | mapPartJoin _ join _, .join | mapPartWithJoin _ join _, .join => join
  | mapPartJoin _ _ join2, .join2 | mapPartWithJoin _ _ join2, .join2 => join2
  | _, _ => Option.none

/-- The plans of a program, whose ids are issued from `n` on. -/
def registerFrom : Nat → List (PlanFunctions F) → FunctionStore F → FunctionStore F
  | _, [], s => s
  | n, p :: plans, s => registerFrom (n + 1) plans (p.register (toInt n) s)

variable {s : FunctionStore F} {n : Nat} {plans : List (PlanFunctions F)} {t : FunctionTable}

theorem register_of_ne {p : PlanFunctions F} {id k : Int} (h : k ≠ id) :
    p.register id s t k = s t k := by
  cases p <;> simp [register, FunctionStore.add, h]

theorem register_self {p : PlanFunctions F} {id : Int} (h : s t id = Option.none) :
    p.register id s t id = p.get t := by
  cases p <;> cases t <;> simp [register, FunctionStore.add, get, h]

theorem registerFrom_of_lt {k : Nat} (hk : k < n) (hlen : n + plans.length ≤ 2 ^ 31) :
    registerFrom n plans s t k = s t k := by
  induction plans generalizing n s with
  | nil => rfl
  | cons p plans ih =>
    rw [List.length_cons] at hlen
    rw [registerFrom, ih (by omega) (by omega), register_of_ne]
    rw [toInt_of_lt (by omega)]
    omega

/-- Every plan finds what it has registered. -/
theorem registerFrom_get {i : Nat} (hi : i < plans.length) (hlen : n + plans.length ≤ 2 ^ 31)
    (hs : ∀ k : Nat, n ≤ k → s t k = Option.none) :
    registerFrom n plans s t (n + i : Nat) = plans[i].get t := by
  induction plans generalizing n s i with
  | nil => exact absurd hi (Nat.not_lt_zero i)
  | cons p plans ih =>
    rw [List.length_cons] at hi hlen
    have hid : toInt n = n := toInt_of_lt (by omega)
    rw [registerFrom, hid]
    cases i with
    | zero =>
      rw [registerFrom_of_lt (by omega) (by omega)]
      exact register_self (hs n (Nat.le_refl n))
    | succ i =>
      rw [show n + (i + 1) = n + 1 + i by omega]
      refine ih (n := n + 1) (i := i) (by omega) (by omega) fun k hk => ?_
      rw [register_of_ne (by omega)]
      exact hs k (by omega)

end PlanFunctions

/-! ## Ids of launches -/

/-- The ids under which plan `i` runs: the one of `Store::make`, which is an `int`, and the one
of a launch for recovery. -/
inductive RunsAs (i : Nat) : Int → Prop
  | ordinary : RunsAs i (toInt i)
  | recovery {id : Int} (h : getRecoverPlanId (toInt i) = .ok id) : RunsAs i id

/-- What the ids are for: a plan can be launched again, under an id of its own, and whatever it
runs as, the scheduler finishes this plan and the workers call its functions. -/
structure Unambiguous (plans : List (PlanFunctions F)) : Prop where
  relaunch : ∀ i < plans.length, ∃ id, getRecoverPlanId (toInt i) = .ok id
  apart : ∀ i < plans.length, ∀ j < plans.length, getRecoverPlanId (toInt i) ≠ .ok (toInt j)
  real : ∀ i < plans.length, ∀ id, RunsAs i id → getRealId id = i
  finish : ∀ i < plans.length, ∀ id, RunsAs i id →
    ∀ (δ : Type) (s : Scheduler δ) (mailbox : List Int), s.mailbox = id :: mailbox →
      s.finishPlan = do
        let runner ← (s.runner.finish i).mapError .runner
        let status ← (s.status.finishPlan i).mapError .status
        Scheduler.tryRunPlan { s with mailbox := mailbox, runner := runner, status := status }
  functions : ∀ i, (hi : i < plans.length) → ∀ id, RunsAs i id → ∀ t,
    PlanFunctions.registerFrom 0 plans .empty t (getRealId id) = plans[i].get t

theorem getRecoverPlanId_of_lt {i : Nat} (hi : i < kRecoverMagic) :
    getRecoverPlanId (toInt i) = .ok (i + kRecoverMagic) := by
  have hlt : i < 2 ^ 31 := Int.ofNat_lt.mp (Int.lt_trans hi (by decide))
  have hnot : isRecoverPlan i = false := decide_eq_false (by omega)
  rw [toInt_of_lt hlt, getRecoverPlanId, check_pos hnot]
  rfl

theorem RunsAs.real {i : Nat} {id : Int} (h : RunsAs i id) (hi : i < kRecoverMagic) :
    getRealId id = i := by
  have hlt : i < 2 ^ 31 := Int.ofNat_lt.mp (Int.lt_trans hi (by decide))
  cases h with
  | ordinary =>
    rw [toInt_of_lt hlt]
    exact Account.getRealId_of_lt hi
  | recovery h =>
    rw [← Except.ok.inj ((getRecoverPlanId_of_lt hi).symm.trans h)]
    exact Account.getRealId_add (Int.natCast_nonneg i)

/-- **Ids of plans.**  They are unambiguous exactly in programs of up to `kRecoverMagic` plans. -/
theorem unambiguous_iff (plans : List (PlanFunctions F)) :
    Unambiguous plans ↔ plans.length ≤ kRecoverMagic := by
  constructor
  · intro h
    by_contra hlen
    -- the plan with this id is taken for a launch of the first one
    have hreal := h.real 10000 (by unfold kRecoverMagic at hlen; omega) _ .ordinary
    rw [toInt_of_lt (by decide)] at hreal
    exact absurd hreal (by decide)
  · intro hlen
    have hlt {i : Nat} (hi : i < plans.length) : (i : Int) < kRecoverMagic := by omega
    have hshort : plans.length < 2 ^ 31 := by
      unfold kRecoverMagic at hlen
      omega
    refine ⟨fun i hi => ⟨_, getRecoverPlanId_of_lt (hlt hi)⟩, fun i hi j hj h => ?_,
      fun i hi id h => h.real (hlt hi), fun i hi id h δ s mailbox hm => ?_, fun i hi id h t => ?_⟩
    · have := Except.ok.inj ((getRecoverPlanId_of_lt (hlt hi)).symm.trans h)
      rw [toInt_of_lt (by omega)] at this
      have := hlt hj
      omega
    · rw [← h.real (hlt hi)]
      exact Scheduler.finishPlan_eq hm
    · rw [h.real (hlt hi)]
      have := PlanFunctions.registerFrom_get (n := 0) (s := .empty) (t := t) hi (by omega)
        fun _ _ => rfl
      rwa [Nat.zero_add] at this

theorem unambiguous_iff_two : Unambiguous [PlanFunctions.mapPartJoin 1 2 3, .none] :=
  (unambiguous_iff _).mpr (by decide)

/-- In a program of 10001 plans the last one runs as plan 0. -/
theorem last_runs_as_first :
    ∃ id, RunsAs 10000 id ∧ getRealId id = 0 ∧
      ¬ Unambiguous (List.replicate 10001 (PlanFunctions.none (F := Nat))) := by
  refine ⟨10000, ?_, by decide, fun h => ?_⟩
  · have := RunsAs.ordinary (i := 10000)
    rwa [toInt_of_lt (by decide)] at this
  · have hreal := h.real 10000 (by rw [List.length_replicate]; decide) _ .ordinary
    rw [toInt_of_lt (by decide)] at hreal
    exact absurd hreal (by decide)

end Tangram
