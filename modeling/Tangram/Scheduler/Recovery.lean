import Tangram.Scheduler.Scheduler

/-!
# Iterations across failures

A map-join with a checkpoint interval loses a written partition: the plan is
aborted, its collections are restored, and `FinishRecovery` launches it again with
the iterations that the checkpoint does not hold.  An `Account` is the scheduler
with a record of iterations: how many the running launch started from (`kept`),
how many are in the files of a checkpoint (`holds`), and how many the checkpoint
holds that the last recovery restores (`restored`).

`iterations_accounted` is about a plan that is launched again at most once, from
a version whose checkpoint does not hold the whole plan: then no check of the
recovery fails and the two launches make up the iterations of the plan.  Both
conditions are needed.  The control manager erases the callback of the first
launch, so that the plan cannot be aborted a second time; and a plan that is
aborted at its last version is launched again with no iteration left.
-/

namespace Tangram

open StepRun List Function Scheduler

/-! ## The account -/

structure Account (δ : Type) where
  sched : Scheduler δ
  kept : Int
  holds : String → Int
  restored : Int

namespace Account

variable {δ : Type} (pid : Int) (spec : MapJoinSpec String)

/-- Iterations in the last checkpoint of what the plan updates. -/
def saved (x : Account δ) : Int :=
  x.holds ((x.sched.status.lastCp.get? spec.updateCollectionId).getD "")

/-- The checkpoints that event `a` added hold the iterations so far. -/
def write (x : Account δ) (t : Scheduler δ) : Scheduler.Event → String → Int
  | .control ctrl =>
    ((t.control ctrl.planId).addedCps.drop (x.sched.control ctrl.planId).addedCps.length).foldl
      (fun holds url => Function.update holds url (x.kept + (t.control ctrl.planId).versions)) x.holds
  | _ => x.holds

def next (x : Account δ) (a : Scheduler.Event) (t : Scheduler δ) : Account δ where
  sched := t
  kept := if t.launches = x.sched.launches then x.kept else x.restored
  holds := x.write t a
  restored := if x.sched.recover.started = false ∧ t.recover.started = true then
    x.saved spec else x.restored

def step (x : Account δ) (a : Scheduler.Event) : Except SchedulerCheck (Account δ) := do
  let t ← x.sched.step a
  return x.next spec a t

def start (s : Scheduler δ) : Account δ := ⟨s, 0, fun _ => 0, 0⟩

/-- The id of the running launch. -/
def running (x : Account δ) : Int := (x.sched.launches.getLast?.map Prod.fst).getD pid

/-- What can happen while plan `pid` runs.  Joins are reported until all iterations are done and
until the nodes finish, nodes finish when they are told to, and nodes that die lose a written
partition. -/
def Allowed (x : Account δ) : Scheduler.Event → Prop
  | .control ctrl => pid ∈ x.sched.status.getCurrentPlans ∧
      ctrl.planId ∈ x.sched.launches.map Prod.fst ∧ ctrl.flag ≠ .kFinishCP ∧
      (ctrl.flag = .kJoin → (x.sched.control ctrl.planId).hasCallback = true ∧
        (x.sched.control ctrl.planId).versions < x.sched.expectedVersions ctrl.planId) ∧
      (ctrl.flag = .kFinish → .kTerminatePlan ∈ (x.sched.control ctrl.planId).broadcasts)
  | .recovery deadNodes => pid ∈ x.sched.status.getCurrentPlans ∧
      (x.sched.control (x.running pid)).hasCallback = true ∧
      x.sched.lostWriteCollection deadNodes x.sched.status.getWrites = .ok true
  | .answer _ => pid ∈ x.sched.status.getCurrentPlans
  | .managerDone _ => False
  | .finishPlan => pid ∈ x.sched.status.getCurrentPlans

/-- Nodes die in the first launch, and what is restored leaves an iteration. -/
def Recoverable (x : Account δ) : Scheduler.Event → Prop
  | .recovery _ => x.sched.launches.length = 1
  | .answer _ => x.sched.recover.started = true → x.restored < spec.numIter
  | _ => True

instance (x : Account δ) : (a : Scheduler.Event) → Decidable (x.Allowed pid a)
  | .control _ => inferInstanceAs (Decidable (_ ∧ _ ∧ _ ∧ (_ → _) ∧ (_ → _)))
  | .recovery _ => inferInstanceAs (Decidable (_ ∧ _ ∧ _))
  | .answer _ => inferInstanceAs (Decidable (_ ∈ _))
  | .managerDone _ => inferInstanceAs (Decidable False)
  | .finishPlan => inferInstanceAs (Decidable (_ ∈ _))

instance (x : Account δ) : (a : Scheduler.Event) → Decidable (x.Recoverable spec a)
  | .recovery _ => inferInstanceAs (Decidable (_ = _))
  | .answer _ => inferInstanceAs (Decidable (_ → _))
  | .control _ | .managerDone _ | .finishPlan => inferInstanceAs (Decidable True)

end Account

/-! ## What a message does -/

variable {sp : MapJoinSpec String}

namespace Scheduler

variable {δ : Type} {s s' t : Scheduler δ} {e : SchedulerCheck} {ctrl : ControllerMsg}

/-- A message launches nothing. -/
structure Kept (s s' : Scheduler δ) : Prop where
  specs : s'.specs = s.specs
  runner : s'.runner = s.runner
  controlSpecs : s'.controlSpecs = s.controlSpecs
  expectedVersions : s'.expectedVersions = s.expectedVersions
  callbacks : s'.callbacks = s.callbacks
  launches : s'.launches = s.launches
  status : s'.status = { s.status with lastCp := s'.status.lastCp }

theorem Kept.getCurrentPlans (h : Kept s s') :
    s'.status.getCurrentPlans = s.status.getCurrentPlans := by
  rw [h.status]
  rfl

theorem foldl_addCP (cid : Int) (urls : List String) (status : CollectionStatus) :
    urls.foldl (fun status url => status.addCP cid url) status =
      { status with
        lastCp := (urls.foldl (fun status url => status.addCP cid url) status).lastCp } := by
  induction urls generalizing status with
  | nil => rfl
  | cons url urls ih => exact ih (status.addCP cid url)

theorem kept_enter (s : Scheduler δ) (id : Int) (spec : MapJoinSpec String) (c : ControlManager) :
    Kept s (s.enter id spec c) :=
  ⟨rfl, rfl, rfl, rfl, rfl, rfl, foldl_addCP _ _ _⟩

/-- A callback tells the scheduler that the plan is finished, or starts a recovery. -/
def Called (s s' : Scheduler δ) : PlanCallback → Prop
  | .finishPlan id => s'.mailbox = s.mailbox ++ [id] ∧ s'.recover = s.recover
  | .recover _ => s'.mailbox = s.mailbox ∧ s.recover.started = false ∧ s'.recover.started = true ∧
      s'.onRecovered = .finishRecovery

theorem call_cases {f : PlanCallback} (h : s.call f = .ok s') :
    Kept s s' ∧ s'.control = s.control ∧ s'.status = s.status ∧ Called s s' f := by
  cases f with
  | finishPlan id =>
    cases h
    exact ⟨⟨rfl, rfl, rfl, rfl, rfl, rfl, rfl⟩, rfl, rfl, rfl, rfl⟩
  | recover dead =>
    obtain ⟨reads, -, h⟩ := bind_eq_ok.mp h
    obtain ⟨writes, -, h⟩ := bind_eq_ok.mp h
    obtain ⟨r, hr, h⟩ := bind_eq_ok.mp h
    cases h
    obtain ⟨h₀, h₁, -⟩ := RecoverManager.recover_cases (mapError_eq_ok.mp hr)
    exact ⟨⟨rfl, rfl, rfl, rfl, rfl, rfl, rfl⟩, rfl, rfl, rfl, h₀, h₁, rfl⟩

theorem call_error {f : PlanCallback} (h : s.call f = .error e) : ¬ e.OfRecovery := by
  intro he
  cases f with
  | finishPlan id => cases h
  | recover dead =>
    rcases bind_eq_error.mp h with h | ⟨reads, -, h⟩
    · obtain ⟨e₀, -, rfl⟩ := mapError_eq_error.mp h
      exact he
    rcases bind_eq_error.mp h with h | ⟨writes, -, h⟩
    · obtain ⟨e₀, -, rfl⟩ := mapError_eq_error.mp h
      exact he
    rcases bind_eq_error.mp h with h | ⟨r, -, h⟩
    · obtain ⟨e₀, -, rfl⟩ := mapError_eq_error.mp h
      exact he
    · cases h

theorem onControl_cases (h : s.onControl ctrl = .ok s') :
    ∃ spec c, (s.controlSpecs ctrl.planId).bind (·.getMapJoinSpec?) = some spec ∧
      ControlManager.control (s.plan ctrl.planId spec) (s.control ctrl.planId) ctrl = .ok c ∧
      if (s.control ctrl.planId).hasCallback = true ∧ c.hasCallback = false then
        (s.enter ctrl.planId spec c).call (s.callbacks ctrl.planId) = .ok s'
      else s' = s.enter ctrl.planId spec c := by
  unfold onControl at h
  split at h
  · cases h
  · next spec hs =>
    obtain ⟨c, hc, h⟩ := bind_eq_ok.mp h
    refine ⟨spec, c, hs, mapError_eq_ok.mp hc, ?_⟩
    split at h
    · next hf => rwa [if_pos hf]
    · next hf =>
      rw [if_neg hf]
      exact (Except.ok.inj h).symm

theorem onControl_error (h : s.onControl ctrl = .error e) : ¬ e.OfRecovery := by
  unfold onControl at h
  split at h
  · cases h
    exact id
  · rcases bind_eq_error.mp h with h | ⟨c, -, h⟩
    · obtain ⟨e₀, -, rfl⟩ := mapError_eq_error.mp h
      exact id
    split at h
    · exact call_error h
    · cases h

/-- The version of a plan stays, and so do its checkpoints. -/
structure Steady (c c' : ControlManager) : Prop where
  versions : c'.versions = c.versions
  addedCps : c'.addedCps = c.addedCps
  terminated : .kTerminatePlan ∈ c'.broadcasts ↔ .kTerminatePlan ∈ c.broadcasts

/-- What a message changes: nothing that counts here, or the callback is taken and called, or the
version rises and may come with a checkpoint. -/
inductive Heard (s s' : Scheduler δ) (ctrl : ControllerMsg) (sp : MapJoinSpec String) : Prop
  | quiet (steady : Steady (s.control ctrl.planId) (s'.control ctrl.planId))
      (hasCallback : (s'.control ctrl.planId).hasCallback = (s.control ctrl.planId).hasCallback)
      (lastCp : s'.status.lastCp = s.status.lastCp) (mailbox : s'.mailbox = s.mailbox)
      (recover : s'.recover = s.recover) (onRecovered : s'.onRecovered = s.onRecovered)
  | finish (flag : ctrl.flag = .kFinish)
      (steady : Steady (s.control ctrl.planId) (s'.control ctrl.planId))
      (hasCallback : (s.control ctrl.planId).hasCallback = true)
      (taken : (s'.control ctrl.planId).hasCallback = false)
      (lastCp : s'.status.lastCp = s.status.lastCp)
      (called : Called s s' (s.callbacks ctrl.planId))
  | rise (flag : ctrl.flag = .kJoin)
      (rises : (s.control ctrl.planId).Rises (s.plan ctrl.planId sp) (s'.control ctrl.planId))
      (lastCp : s'.status.lastCp =
        if sp.checkpointInterval ≠ 0 ∧
          ((s.control ctrl.planId).versions + 1).tmod sp.checkpointInterval = 0
        then s.status.lastCp.set sp.updateCollectionId
          (ControlManager.cpUrl (s.plan ctrl.planId sp)
            (((s.control ctrl.planId).versions + 1).tdiv sp.checkpointInterval))
        else s.status.lastCp)
      (mailbox : s'.mailbox = s.mailbox) (recover : s'.recover = s.recover)
      (onRecovered : s'.onRecovered = s.onRecovered)

theorem control_enter (s : Scheduler δ) (id : Int) (sp : MapJoinSpec String) (c : ControlManager) :
    (s.enter id sp c).control id = c :=
  update_self _ _ _

theorem lastCp_enter_of_steady {id : Int} {c : ControlManager}
    (h : c.addedCps = (s.control id).addedCps) :
    (s.enter id sp c).status.lastCp = s.status.lastCp := by
  show CollectionStatus.lastCp (List.foldl _ _ (c.addedCps.drop _)) = _
  rw [h, drop_length]
  rfl

theorem onControl_heard (hcp : ctrl.flag ≠ .kFinishCP) (h : s.onControl ctrl = .ok s') :
    ∃ sp, (s.controlSpecs ctrl.planId).bind (·.getMapJoinSpec?) = some sp ∧ Kept s s' ∧
      (∀ id, id ≠ ctrl.planId → s'.control id = s.control id) ∧ Heard s s' ctrl sp := by
  obtain ⟨sp, c, hsp, hc, h⟩ := onControl_cases h
  have hother : ∀ id, id ≠ ctrl.planId → (s.enter ctrl.planId sp c).control id = s.control id :=
    fun id hid => update_of_ne hid _ _
  refine ⟨sp, hsp, ?_⟩
  rcases ControlManager.control_cases hcp hc with ⟨hv, ha, ht, hcb⟩ | ⟨hf, hr⟩
  · have hsteady : Steady (s.control ctrl.planId) c := ⟨hv, ha, ht⟩
    rcases hcb with hcb | ⟨hf, htrue, hfalse⟩
    · rw [if_neg (by rw [hcb]; simp)] at h
      subst h
      refine ⟨kept_enter _ _ _ _, hother, .quiet ?_ ?_ (lastCp_enter_of_steady ha) rfl rfl rfl⟩
      · rwa [control_enter]
      · rwa [control_enter]
    · rw [if_pos ⟨htrue, hfalse⟩] at h
      obtain ⟨hk, hctl, hst, hcall⟩ := call_cases h
      have hk' := kept_enter s ctrl.planId sp c
      refine ⟨⟨hk.specs, hk.runner, hk.controlSpecs, hk.expectedVersions, hk.callbacks, hk.launches,
        by rw [hst]; exact hk'.status⟩, fun id hid => by rw [hctl, hother id hid],
        .finish hf ?_ htrue ?_ ?_ hcall⟩
      · rwa [hctl, control_enter]
      · rwa [hctl, control_enter]
      · rw [hst]
        exact lastCp_enter_of_steady ha
  · rw [if_neg (by rw [hr.hasCallback]; simp)] at h
    subst h
    refine ⟨kept_enter _ _ _ _, hother, .rise hf ?_ ?_ rfl rfl rfl⟩
    · rwa [control_enter]
    · have hadd := hr.addedCps
      have hplan : (s.plan ctrl.planId sp).checkpointInterval = sp.checkpointInterval := rfl
      rw [hplan] at hadd
      split
      · next hm =>
        rw [if_pos hm] at hadd
        show CollectionStatus.lastCp (List.foldl _ _ (c.addedCps.drop _)) = _
        rw [hadd, drop_left]
        rfl
      · next hm =>
        rw [if_neg hm] at hadd
        exact lastCp_enter_of_steady hadd

/-! ## What a recovery does -/

section FinishRecovery

variable {pid : Int} {w : SpecWrapper String δ} {spec : MapJoinSpec String}

theorem getMapJoinSpec?_again (n id : Int) (hspec : w.getMapJoinSpec? = some spec) :
    (w.again n id).getMapJoinSpec? = some { spec with numIter := n } := by
  obtain ⟨type, i, name, sp⟩ := w
  cases sp with
  | mapJoin m =>
    cases Option.some.inj hspec
    rfl
  | mapWithJoin m =>
    cases Option.some.inj hspec
    rfl
  | _ => cases hspec

/-- `FinishRecovery` of a map-join, up to `RunPlan`. -/
theorem finishRecovery_eq (hcur : s.status.getCurrentPlans = [pid]) (hpid : 0 ≤ pid)
    (hmagic : pid < kRecoverMagic) (hw : s.specs[pid.toNat]? = some w) (hmj : w.isMapJoin = true)
    (hspec : w.getMapJoinSpec? = some spec) (hci : spec.checkpointInterval ≠ 0) :
    s.finishRecovery = (s.status.finishPlan pid).mapError .status >>= fun status =>
      runPlan { s with
        status := status
        specs := s.specs.set pid.toNat (w.again (s.newIter pid spec) (pid + kRecoverMagic)) } pid := by
  have hlt : pid < s.specs.length := by
    have := (List.getElem?_eq_some_iff.mp hw).1
    omega
  have hrec : getRecoverPlanId pid = .ok (pid + kRecoverMagic) := by
    have hno : isRecoverPlan pid = false := decide_eq_false (by omega)
    unfold getRecoverPlanId
    rw [check_pos hno]
    rfl
  unfold finishRecovery
  rw [hcur]
  dsimp only
  rw [check_pos ⟨hpid, hlt⟩, hw]
  dsimp only
  rw [check_pos hmj, hspec]
  dsimp only
  unfold relaunch
  rw [check_pos hci, hrec]
  rfl

/-- The state in which `FinishRecovery` has launched the plan again. -/
def relaunched (s : Scheduler δ) (pid : Int) (w : SpecWrapper String δ) (spec : MapJoinSpec String)
    (status : CollectionStatus) : Scheduler δ :=
  launch
    { s with
      status := status
      specs := s.specs.set pid.toNat (w.again (s.newIter pid spec) (pid + kRecoverMagic)) }
    (w.again (s.newIter pid spec) (pid + kRecoverMagic)) { spec with numIter := s.newIter pid spec }

theorem finishRecovery_cases (hcur : s.status.getCurrentPlans = [pid]) (hpid : 0 ≤ pid)
    (hmagic : pid < kRecoverMagic) (hw : s.specs[pid.toNat]? = some w) (hmj : w.isMapJoin = true)
    (hspec : w.getMapJoinSpec? = some spec) (hci : spec.checkpointInterval ≠ 0)
    (h : s.finishRecovery = .ok s') :
    ∃ status, status.getCurrentPlans = [pid] ∧ s' = s.relaunched pid w spec status := by
  have hlen := (List.getElem?_eq_some_iff.mp hw).1
  rw [finishRecovery_eq hcur hpid hmagic hw hmj hspec hci] at h
  obtain ⟨status, hst, h⟩ := bind_eq_ok.mp h
  obtain ⟨-, hfin, -⟩ := CollectionStatus.finishPlan_cases (mapError_eq_ok.mp hst)
  obtain ⟨-, w', status', hw', hadd, hdisp⟩ := runPlan_cases h
  have hset : w.again (s.newIter pid spec) (pid + kRecoverMagic) = w' := by
    refine Option.some.inj (Eq.trans ?_ hw')
    exact (List.getElem?_set_self hlen).symm
  subst hset
  have hmj' : (w.again (s.newIter pid spec) (pid + kRecoverMagic)).isMapJoin = true := hmj
  rw [dispatch_of_isMapJoin _ hmj'] at hdisp
  obtain ⟨-, sp, hsp, rfl⟩ := controlRunPlan_cases hdisp
  cases Option.some.inj ((getMapJoinSpec?_again _ _ hspec).symm.trans hsp)
  exact ⟨status', CollectionStatus.getCurrentPlans_set _
    (CollectionStatus.getCurrentPlans_erase hcur hfin) (CollectionStatus.addPlan_cases hadd).2.1, rfl⟩

theorem finishRecovery_error (hcur : s.status.getCurrentPlans = [pid]) (hpid : 0 ≤ pid)
    (hmagic : pid < kRecoverMagic) (hw : s.specs[pid.toNat]? = some w) (hmj : w.isMapJoin = true)
    (hspec : w.getMapJoinSpec? = some spec) (hci : spec.checkpointInterval ≠ 0)
    (h : s.finishRecovery = .error e) (he : e.OfRecovery) :
    s.newIter pid spec = 0 ∨
      ∃ w ∈ s.specs, ∃ spec, w.getMapJoinSpec? = some spec ∧ spec.numIter = 0 := by
  rw [finishRecovery_eq hcur hpid hmagic hw hmj hspec hci] at h
  rcases bind_eq_error.mp h with h | ⟨status, -, h⟩
  · obtain ⟨e₀, -, rfl⟩ := mapError_eq_error.mp h
    exact False.elim he
  · obtain ⟨w', hw', sp, hsp, hzero⟩ := runPlan_error h he
    rcases mem_or_eq_of_mem_set hw' with hmem | rfl
    · exact .inr ⟨w', hmem, sp, hsp, hzero⟩
    · cases Option.some.inj ((getMapJoinSpec?_again _ _ hspec).symm.trans hsp)
      exact .inl hzero

end FinishRecovery

end Scheduler

/-! ## Phases of a plan -/

/-- Plan `pid` is launched while nothing else runs; the record of launches begins with it. -/
structure Starts {δ : Type} (s : Scheduler δ) (pid : Int) (w : SpecWrapper String δ)
    (spec : MapJoinSpec String) : Prop where
  idle : s.status.getCurrentPlans = []
  stored : s.specs[pid.toNat]? = some w
  isMapJoin : w.isMapJoin = true
  hasSpec : w.getMapJoinSpec? = some spec
  id : w.id = pid
  iters : 1 ≤ spec.numIter
  interval : 1 ≤ spec.checkpointInterval
  program : ∀ w ∈ s.specs, ∀ spec, w.getMapJoinSpec? = some spec → spec.numIter ≠ 0
  started : s.recover.started = false
  mailbox : s.mailbox = []
  launches : s.launches = []

namespace Account

variable {δ : Type} {pid : Int} {w : SpecWrapper String δ} {spec : MapJoinSpec String}
  {s : Scheduler δ}

/-- Launch `id` runs for `n` iterations, of which some are done. -/
structure Launched (spec : MapJoinSpec String) (s : Scheduler δ) (id n : Int) : Prop where
  hasSpec : ∃ sp, (s.controlSpecs id).bind (·.getMapJoinSpec?) = some sp ∧
    sp.checkpointInterval = spec.checkpointInterval ∧
    sp.updateCollectionId = spec.updateCollectionId ∧ sp.checkpointPath = spec.checkpointPath
  expected : s.expectedVersions id = n
  nonneg : 0 ≤ (s.control id).versions
  le : (s.control id).versions ≤ n

/-- Launch `id` is not aborted: it ends with its `n` iterations done. -/
structure Going (spec : MapJoinSpec String) (s : Scheduler δ) (id n : Int) : Prop
    extends Launched spec s id n where
  callback : s.callbacks id = .finishPlan id
  started : s.recover.started = false
  terminated : .kTerminatePlan ∈ (s.control id).broadcasts → (s.control id).versions = n
  finished : ((s.control id).hasCallback = true ∧ s.mailbox = []) ∨
    ((s.control id).hasCallback = false ∧ s.mailbox = [id] ∧ (s.control id).versions = n)

/-- The plan has been launched once. -/
structure First (pid : Int) (w : SpecWrapper String δ) (spec : MapJoinSpec String) (x : Account δ) :
    Prop extends Launched spec x.sched pid spec.numIter where
  launches : x.sched.launches = [(pid, spec.numIter)]
  stored : x.sched.specs[pid.toNat]? = some w
  kept : x.kept = 0
  saved : x.saved spec = (x.sched.control pid).versions.tdiv spec.checkpointInterval *
    spec.checkpointInterval

/-- The first launch was told to end, for the sake of a recovery. -/
structure Aborting (pid : Int) (w : SpecWrapper String δ) (spec : MapJoinSpec String)
    (x : Account δ) : Prop extends First pid w spec x where
  callback : ∃ dead, x.sched.callbacks pid = .recover dead
  hasCallback : (x.sched.control pid).hasCallback = true
  started : x.sched.recover.started = false
  mailbox : x.sched.mailbox = []

/-- The collections are restored. -/
structure Recovering (pid : Int) (w : SpecWrapper String δ) (spec : MapJoinSpec String)
    (x : Account δ) : Prop extends First pid w spec x where
  hasCallback : (x.sched.control pid).hasCallback = false
  started : x.sched.recover.started = true
  onRecovered : x.sched.onRecovered = .finishRecovery
  restored : x.restored = (x.sched.control pid).versions.tdiv spec.checkpointInterval *
    spec.checkpointInterval
  mailbox : x.sched.mailbox = []

/-- The plan has been launched again, for `n` iterations. -/
structure Again (pid : Int) (spec : MapJoinSpec String) (n : Int) (x : Account δ) : Prop
    extends Going spec x.sched (pid + kRecoverMagic) n where
  launches : x.sched.launches = [(pid, spec.numIter), (pid + kRecoverMagic, n)]
  pos : 1 ≤ n
  kept : x.kept + n = spec.numIter
  keptNonneg : 0 ≤ x.kept
  hasCallback : (x.sched.control pid).hasCallback = false

/-- The phases, while the plan runs. -/
structure Phase (pid : Int) (w : SpecWrapper String δ) (spec : MapJoinSpec String) (x : Account δ) :
    Prop where
  current : x.sched.status.getCurrentPlans = [pid]
  program : ∀ w ∈ x.sched.specs, ∀ spec, w.getMapJoinSpec? = some spec → spec.numIter ≠ 0
  phase : (First pid w spec x ∧ Going spec x.sched pid spec.numIter) ∨ Aborting pid w spec x ∨
    Recovering pid w spec x ∨ ∃ n, Again pid spec n x

/-! ### A launch -/

theorem going_launch (hsp : w.getMapJoinSpec? = some sp)
    (hci : sp.checkpointInterval = spec.checkpointInterval)
    (hcid : sp.updateCollectionId = spec.updateCollectionId)
    (hpath : sp.checkpointPath = spec.checkpointPath) (hn : 0 ≤ sp.numIter)
    (hst : s.recover.started = false) (hm : s.mailbox = []) :
    Going spec (s.launch w sp) w.id sp.numIter := by
  have hc : (s.launch w sp).control w.id = { s.control w.id with
      isSetup := ∅, isFinished := ∅, versions := 0, hasCallback := true, broadcasts := [.kSetup] } :=
    update_self _ _ _
  have hspec : (s.launch w sp).controlSpecs w.id = some w := update_self _ _ _
  constructor
  · constructor
    · exact ⟨sp, by rw [hspec]; exact hsp, hci, hcid, hpath⟩
    · exact update_self _ _ _
    · rw [hc]
    · rw [hc]
      exact hn
  · exact update_self _ _ _
  · exact hst
  · rw [hc]
    intro h
    simp at h
  · rw [hc]
    exact .inl ⟨rfl, hm⟩

theorem phase_start {s s₁ : Scheduler δ} (hs : Starts s pid w spec) (hrun : s.runPlan pid = .ok s₁) :
    Phase pid w spec (start s₁) := by
  obtain ⟨-, w', status, hw, hadd, hdisp⟩ := runPlan_cases hrun
  cases Option.some.inj (hs.stored.symm.trans hw)
  rw [dispatch_of_isMapJoin _ hs.isMapJoin] at hdisp
  obtain ⟨-, sp, hsp, rfl⟩ := controlRunPlan_cases hdisp
  cases Option.some.inj (hs.hasSpec.symm.trans hsp)
  have hiters := hs.iters
  have hgo := going_launch (s := { s with status := status }) hsp rfl rfl rfl (by omega) hs.started
    hs.mailbox
  rw [hs.id] at hgo
  constructor
  · exact CollectionStatus.getCurrentPlans_set _ hs.idle (CollectionStatus.addPlan_cases hadd).2.1
  · exact hs.program
  · refine .inl ⟨⟨hgo.toLaunched, ?_, hs.stored, rfl, ?_⟩, hgo⟩
    · show s.launches ++ [(w.id, spec.numIter)] = _
      rw [hs.launches, hs.id]
      rfl
    · have hc : ((start (launch { s with status := status } w spec)).sched.control pid).versions
          = 0 := by
        simp [start, launch, ← hs.id]
      rw [hc]
      simp [saved, start]

/-! ### A message -/

section Control

variable {s s' : Scheduler δ} {x : Account δ} {ctrl : ControllerMsg} {id n : Int}

theorem Launched.control (h : Launched spec s ctrl.planId n) (hcp : ctrl.flag ≠ .kFinishCP)
    (hjoin : ctrl.flag = .kJoin → (s.control ctrl.planId).versions < s.expectedVersions ctrl.planId)
    (hs : s.onControl ctrl = .ok s') : Launched spec s' ctrl.planId n := by
  obtain ⟨sp, hsp, hk, -, hheard⟩ := onControl_heard hcp hs
  have hnonneg := h.nonneg
  have hle := h.le
  refine ⟨by rw [hk.controlSpecs]; exact h.hasSpec, by rw [hk.expectedVersions]; exact h.expected,
    ?_, ?_⟩
  · cases hheard with
    | quiet steady => rw [steady.versions]; exact hnonneg
    | finish flag steady => rw [steady.versions]; exact hnonneg
    | rise flag rises => rw [rises.versions]; omega
  · cases hheard with
    | quiet steady => rw [steady.versions]; exact hle
    | finish flag steady => rw [steady.versions]; exact hle
    | rise flag rises =>
      have hlt := hjoin flag
      rw [h.expected] at hlt
      rw [rises.versions]
      omega

theorem Going.control (h : Going spec s ctrl.planId n) (hcp : ctrl.flag ≠ .kFinishCP)
    (hjoin : ctrl.flag = .kJoin → (s.control ctrl.planId).hasCallback = true ∧
      (s.control ctrl.planId).versions < s.expectedVersions ctrl.planId)
    (hfin : ctrl.flag = .kFinish → .kTerminatePlan ∈ (s.control ctrl.planId).broadcasts)
    (hs : s.onControl ctrl = .ok s') : Going spec s' ctrl.planId n := by
  have hl := h.toLaunched.control hcp (fun hf => (hjoin hf).2) hs
  obtain ⟨sp, hsp, hk, -, hheard⟩ := onControl_heard hcp hs
  have hcall : s'.callbacks ctrl.planId = .finishPlan ctrl.planId := by
    rw [hk.callbacks]
    exact h.callback
  cases hheard with
  | quiet steady hasCallback lastCp mailbox recover onRecovered =>
    refine ⟨hl, hcall, by rw [recover]; exact h.started, ?_, ?_⟩
    · rw [steady.terminated, steady.versions]
      exact h.terminated
    · rw [hasCallback, mailbox, steady.versions]
      exact h.finished
  | finish flag steady hasCallback taken lastCp called =>
    rw [h.callback] at called
    have hempty : s.mailbox = [] := by
      rcases h.finished with ⟨-, hm⟩ | ⟨hf, -⟩
      · exact hm
      · rw [hasCallback] at hf
        cases hf
    refine ⟨hl, hcall, by rw [called.2]; exact h.started, ?_, .inr ⟨taken, ?_, ?_⟩⟩
    · rw [steady.terminated, steady.versions]
      exact h.terminated
    · rw [called.1, hempty]
      rfl
    · rw [steady.versions]
      exact h.terminated (hfin flag)
  | rise flag rises lastCp mailbox recover onRecovered =>
    have hlt := (hjoin flag).2
    rw [h.expected] at hlt
    refine ⟨hl, hcall, by rw [recover]; exact h.started, ?_, .inl ⟨?_, ?_⟩⟩
    · rw [rises.terminated, rises.versions]
      rintro (ht | ht)
      · have := h.terminated ht
        omega
      · exact ht.trans h.expected
    · rw [rises.hasCallback]
      exact (hjoin flag).1
    · rw [mailbox]
      rcases h.finished with ⟨-, hm⟩ | ⟨hf, -⟩
      · exact hm
      · rw [(hjoin flag).1] at hf
        cases hf

/-- A launch that has ended no longer matters to the one that runs. -/
theorem Going.control_other (h : Going spec s id n) (hid : id ≠ ctrl.planId)
    (hcp : ctrl.flag ≠ .kFinishCP) (hcb : (s.control ctrl.planId).hasCallback = false)
    (hjoin : ctrl.flag = .kJoin → (s.control ctrl.planId).hasCallback = true)
    (hs : s.onControl ctrl = .ok s') :
    Going spec s' id n ∧ (s'.control ctrl.planId).hasCallback = false := by
  obtain ⟨sp, hsp, hk, hother, hheard⟩ := onControl_heard hcp hs
  cases hheard with
  | quiet steady hasCallback lastCp mailbox recover onRecovered =>
    refine ⟨⟨⟨?_, ?_, ?_, ?_⟩, ?_, ?_, ?_, ?_⟩, by rw [hasCallback]; exact hcb⟩
    · rw [hk.controlSpecs]
      exact h.hasSpec
    · rw [hk.expectedVersions]
      exact h.expected
    · rw [hother id hid]
      exact h.nonneg
    · rw [hother id hid]
      exact h.le
    · rw [hk.callbacks]
      exact h.callback
    · rw [recover]
      exact h.started
    · rw [hother id hid]
      exact h.terminated
    · rw [hother id hid, mailbox]
      exact h.finished
  | finish flag steady hasCallback =>
    rw [hcb] at hasCallback
    cases hasCallback
  | rise flag rises =>
    have := hjoin flag
    rw [hcb] at this
    cases this

/-- `v` rounded down to a multiple of the interval, one version on. -/
theorem rounded_succ {v ci : Int} (hv : 0 ≤ v) (hci : 1 ≤ ci) :
    (v + 1).tdiv ci * ci = if (v + 1).tmod ci = 0 then v + 1 else v.tdiv ci * ci := by
  obtain ⟨a, rfl⟩ := Int.eq_ofNat_of_zero_le hv
  obtain ⟨b, rfl⟩ := Int.eq_ofNat_of_zero_le (by omega : 0 ≤ ci)
  rw [Int.tmod_eq_emod_of_nonneg (by omega), Int.tdiv_eq_ediv_of_nonneg (by omega),
    Int.tdiv_eq_ediv_of_nonneg hv]
  norm_cast
  split
  · next hd => exact Nat.div_mul_cancel (Nat.dvd_of_mod_eq_zero hd)
  · next hd => rw [Nat.succ_div_of_not_dvd fun h => hd (Nat.mod_eq_zero_of_dvd h)]

theorem First.control (h : First pid w spec x) (hid : ctrl.planId = pid)
    (hci : 1 ≤ spec.checkpointInterval) (hcp : ctrl.flag ≠ .kFinishCP)
    (hjoin : ctrl.flag = .kJoin →
      (x.sched.control ctrl.planId).versions < x.sched.expectedVersions ctrl.planId)
    (hs : x.sched.onControl ctrl = .ok s') : First pid w spec (x.next spec (.control ctrl) s') := by
  subst hid
  obtain ⟨sp, hsp, hk, -, hheard⟩ := onControl_heard hcp hs
  refine ⟨h.toLaunched.control hcp hjoin hs, hk.launches.trans h.launches,
    by show s'.specs[_]? = _; rw [hk.specs]; exact h.stored,
    (if_pos hk.launches).trans h.kept, ?_⟩
  have hsteady : Scheduler.Steady (x.sched.control ctrl.planId) (s'.control ctrl.planId) →
      s'.status.lastCp = x.sched.status.lastCp →
      (x.next spec (.control ctrl) s').saved spec =
        (s'.control ctrl.planId).versions.tdiv spec.checkpointInterval * spec.checkpointInterval := by
    intro steady lastCp
    have hholds : (x.next spec (.control ctrl) s').holds = x.holds := by
      show List.foldl _ _ (List.drop _ _) = _
      rw [steady.addedCps, drop_length]
      rfl
    rw [steady.versions, ← h.saved]
    unfold Account.saved
    rw [hholds]
    exact congrArg (fun m => x.holds ((OrdMap.get? m _).getD "")) lastCp
  cases hheard with
  | quiet steady hasCallback lastCp => exact hsteady steady lastCp
  | finish flag steady hasCallback taken lastCp => exact hsteady steady lastCp
  | rise flag rises lastCp mailbox recover onRecovered =>
    obtain ⟨sp', hsp', hci', hcid', -⟩ := h.hasSpec
    cases Option.some.inj (hsp'.symm.trans hsp)
    have hadd := rises.addedCps
    show (x.next spec (.control ctrl) s').saved spec = (s'.control ctrl.planId).versions.tdiv _ * _
    rw [rises.versions, rounded_succ h.nonneg hci]
    have hplan : (x.sched.plan ctrl.planId sp).checkpointInterval = spec.checkpointInterval := hci'
    rw [hplan] at hadd
    rw [hci'] at lastCp
    split
    · next hm =>
      rw [if_pos ⟨by omega, hm⟩] at hadd lastCp
      unfold Account.saved next write
      dsimp only
      rw [hadd, drop_left, lastCp, ← hcid']
      simp only [foldl_cons, foldl_nil, OrdMap.get?_set, if_pos, Option.getD_some,
        update_self, rises.versions, h.kept]
      omega
    · next hm =>
      rw [if_neg fun hboth => hm hboth.2] at hadd lastCp
      rw [← h.saved]
      unfold Account.saved next write
      dsimp only
      rw [hadd, drop_length, lastCp]
      rfl

theorem next_control_kept (spec : MapJoinSpec String) (hs : x.sched.onControl ctrl = .ok s') (hcp : ctrl.flag ≠ .kFinishCP) :
    (x.next spec (.control ctrl) s').kept = x.kept := by
  obtain ⟨-, -, hk, -⟩ := onControl_heard hcp hs
  exact if_pos hk.launches

theorem Aborting.control (h : Aborting pid w spec x) (hid : ctrl.planId = pid)
    (hci : 1 ≤ spec.checkpointInterval) (hcp : ctrl.flag ≠ .kFinishCP)
    (hjoin : ctrl.flag = .kJoin →
      (x.sched.control ctrl.planId).versions < x.sched.expectedVersions ctrl.planId)
    (hs : x.sched.onControl ctrl = .ok s') :
    Aborting pid w spec (x.next spec (.control ctrl) s') ∨
      Recovering pid w spec (x.next spec (.control ctrl) s') := by
  have hfirst := h.toFirst.control hid hci hcp hjoin hs
  subst hid
  obtain ⟨sp, hsp, hk, -, hheard⟩ := onControl_heard hcp hs
  have hcall : ∃ dead, s'.callbacks ctrl.planId = .recover dead := by
    rw [hk.callbacks]
    exact h.callback
  cases hheard with
  | quiet steady hasCallback lastCp mailbox recover onRecovered =>
    exact .inl ⟨hfirst, hcall, hasCallback.trans h.hasCallback,
      (congrArg RecoverManager.started recover).trans h.started, mailbox.trans h.mailbox⟩
  | finish flag steady hasCallback taken lastCp called =>
    obtain ⟨dead, hdead⟩ := h.callback
    rw [hdead] at called
    obtain ⟨hm, -, hst, hon⟩ := called
    refine .inr ⟨hfirst, taken, hst, hon, ?_, hm.trans h.mailbox⟩
    have hrestored : (x.next spec (.control ctrl) s').restored = x.saved spec :=
      if_pos ⟨h.started, hst⟩
    rw [hrestored, h.saved]
    show _ = (s'.control ctrl.planId).versions.tdiv _ * _
    rw [steady.versions]
  | rise flag rises lastCp mailbox recover onRecovered =>
    exact .inl ⟨hfirst, hcall, rises.hasCallback.trans h.hasCallback,
      (congrArg RecoverManager.started recover).trans h.started, mailbox.trans h.mailbox⟩

theorem Recovering.control (h : Recovering pid w spec x) (hid : ctrl.planId = pid)
    (hci : 1 ≤ spec.checkpointInterval) (hcp : ctrl.flag ≠ .kFinishCP)
    (hjoin : ctrl.flag = .kJoin → (x.sched.control ctrl.planId).hasCallback = true ∧
      (x.sched.control ctrl.planId).versions < x.sched.expectedVersions ctrl.planId)
    (hs : x.sched.onControl ctrl = .ok s') :
    Recovering pid w spec (x.next spec (.control ctrl) s') := by
  have hfirst := h.toFirst.control hid hci hcp (fun hf => (hjoin hf).2) hs
  subst hid
  have hnot := h.hasCallback
  obtain ⟨sp, hsp, hk, -, hheard⟩ := onControl_heard hcp hs
  cases hheard with
  | quiet steady hasCallback lastCp mailbox recover onRecovered =>
    refine ⟨hfirst, hasCallback.trans hnot, (congrArg RecoverManager.started recover).trans h.started,
      onRecovered.trans h.onRecovered, ?_, mailbox.trans h.mailbox⟩
    have hrestored : (x.next spec (.control ctrl) s').restored = x.restored :=
      if_neg fun hboth => by simp [h.started] at hboth
    rw [hrestored, h.restored]
    show _ = (s'.control ctrl.planId).versions.tdiv _ * _
    rw [steady.versions]
  | finish flag steady hasCallback =>
    rw [hnot] at hasCallback
    cases hasCallback
  | rise flag =>
    have hcb := (hjoin flag).1
    rw [hnot] at hcb
    cases hcb

theorem Again.control (h : Again pid spec n x)
    (hid : ctrl.planId = pid ∨ ctrl.planId = pid + kRecoverMagic) (hcp : ctrl.flag ≠ .kFinishCP)
    (hjoin : ctrl.flag = .kJoin → (x.sched.control ctrl.planId).hasCallback = true ∧
      (x.sched.control ctrl.planId).versions < x.sched.expectedVersions ctrl.planId)
    (hfin : ctrl.flag = .kFinish → .kTerminatePlan ∈ (x.sched.control ctrl.planId).broadcasts)
    (hs : x.sched.onControl ctrl = .ok s') : Again pid spec n (x.next spec (.control ctrl) s') := by
  have hne : pid ≠ pid + kRecoverMagic := by
    unfold kRecoverMagic
    omega
  obtain ⟨sp, hsp, hk, hother, -⟩ := onControl_heard hcp hs
  have hkept := next_control_kept spec hs hcp
  have hgoing : Going spec s' (pid + kRecoverMagic) n ∧ (s'.control pid).hasCallback = false := by
    rcases hid with hid | hid
    · have hcb : (x.sched.control ctrl.planId).hasCallback = false := by
        rw [hid]
        exact h.hasCallback
      have hboth := h.toGoing.control_other (by omega) hcp hcb (fun hf => (hjoin hf).1) hs
      rwa [hid] at hboth
    · refine ⟨?_, ?_⟩
      · rw [← hid]
        exact Going.control (hid ▸ h.toGoing) hcp hjoin hfin hs
      · rw [hother pid (by omega)]
        exact h.hasCallback
  refine ⟨hgoing.1, hk.launches.trans h.launches, h.pos, ?_, ?_, hgoing.2⟩
  · rw [hkept]
    exact h.kept
  · rw [hkept]
    exact h.keptNonneg

/-- A message keeps to the phases. -/
theorem Phase.control (h : Phase pid w spec x) (hci : 1 ≤ spec.checkpointInterval)
    (hal : x.Allowed pid (.control ctrl)) (hs : x.sched.onControl ctrl = .ok s') :
    Phase pid w spec (x.next spec (.control ctrl) s') := by
  obtain ⟨-, hid, hcp, hjoin, hfin⟩ := hal
  obtain ⟨sp, hsp, hk, -, -⟩ := onControl_heard hcp hs
  have hfirst : First pid w spec x → ctrl.planId = pid := by
    intro hf
    rw [hf.launches] at hid
    simpa using hid
  refine ⟨hk.getCurrentPlans.trans h.current, ?_, ?_⟩
  · show ∀ w ∈ s'.specs, _
    rw [hk.specs]
    exact h.program
  rcases h.phase with ⟨hf, hg⟩ | ha | hr | ⟨n, hag⟩
  · have hid' := hfirst hf
    refine .inl ⟨hf.control hid' hci hcp (fun hj => (hjoin hj).2) hs, ?_⟩
    have hg' := Going.control (hid'.symm ▸ hg) hcp hjoin hfin hs
    rw [hid'] at hg'
    exact hg'
  · rcases ha.control (hfirst ha.toFirst) hci hcp (fun hj => (hjoin hj).2) hs with ha | hr
    · exact .inr (.inl ha)
    · exact .inr (.inr (.inl hr))
  · exact .inr (.inr (.inl (hr.control (hfirst hr.toFirst) hci hcp hjoin hs)))
  · refine .inr (.inr (.inr ⟨n, hag.control ?_ hcp hjoin hfin hs⟩))
    rw [hag.launches] at hid
    simpa using hid

end Control

/-! ### Nodes die -/

section Events

variable {s' : Scheduler δ} {x u : Account δ} {dead : OrdSet Int}

theorem lostWriteCollection_removeNodes (s : Scheduler δ) (dead dead' : OrdSet Int)
    (writes : List Int) : (s.removeNodes dead).lostWriteCollection dead' writes =
      s.lostWriteCollection dead' writes := by
  induction writes with
  | nil => rfl
  | cons c writes ih =>
    unfold lostWriteCollection
    rw [ih]
    rfl

/-- `Recovery` aborts a map-join that has not ended. -/
theorem recovery_eq (hcur : s.status.getCurrentPlans = [pid]) (hw : s.specs[pid.toNat]? = some w)
    (hmj : w.isMapJoin = true) (hlost : s.lostWriteCollection dead s.status.getWrites = .ok true)
    (hcb : (s.control pid).hasCallback = true) :
    s.recovery dead = .ok { s.removeNodes dead with
      callbacks := update s.callbacks pid (.recover dead)
      control := update s.control pid
        ((s.control pid).sendToAllControllers .kTerminatePlan) } := by
  have hlost' : (s.removeNodes dead).lostWriteCollection dead
      (s.removeNodes dead).status.getWrites = .ok true := by
    rw [lostWriteCollection_removeNodes]
    exact hlost
  have hw' : (s.removeNodes dead).specs[pid.toNat]? = some w := hw
  have hcb' : ((s.removeNodes dead).control pid).hasCallback = true := hcb
  unfold recovery
  rw [hcur]
  dsimp only
  unfold recoverPlan
  rw [hw']
  dsimp only
  rw [check_pos hmj, hlost']
  show abortPlan _ _ _ = _
  unfold abortPlan
  rw [check_pos hcb']
  rfl

theorem First.running (h : First pid w spec x) : x.running pid = pid := by
  unfold Account.running
  rw [h.launches]
  rfl

theorem First.recovery (h : First pid w spec x) (hmj : w.isMapJoin = true)
    (hst : x.sched.recover.started = false) (hm : x.sched.mailbox = [])
    (hcur : x.sched.status.getCurrentPlans = [pid])
    (hcb : (x.sched.control pid).hasCallback = true)
    (hlost : x.sched.lostWriteCollection dead x.sched.status.getWrites = .ok true)
    (hs : x.sched.recovery dead = .ok s') :
    Aborting pid w spec (x.next spec (.recovery dead) s') := by
  rw [recovery_eq hcur h.stored hmj hlost hcb] at hs
  cases hs
  have hc : update x.sched.control pid
      ((x.sched.control pid).sendToAllControllers .kTerminatePlan) pid =
      (x.sched.control pid).sendToAllControllers .kTerminatePlan := update_self _ _ _
  have hv : (update x.sched.control pid
      ((x.sched.control pid).sendToAllControllers .kTerminatePlan) pid).versions =
      (x.sched.control pid).versions := by
    rw [hc]
    rfl
  refine ⟨⟨⟨h.hasSpec, h.expected, ?_, ?_⟩, h.launches, h.stored, (if_pos rfl).trans h.kept, ?_⟩,
    ⟨dead, update_self _ _ _⟩, ?_, hst, hm⟩
  · exact hv ▸ h.nonneg
  · exact hv ▸ h.le
  · show Account.saved spec x = (update x.sched.control pid _ pid).versions.tdiv _ * _
    rw [hv]
    exact h.saved
  · show (update x.sched.control pid _ pid).hasCallback = true
    rw [hc]
    exact hcb

/-! ### The collections are restored -/

/-- An answer on which nothing is called. -/
theorem Phase.answer_quiet (h : Phase pid w spec x) {r : RecoverManager} {i : Nat}
    (hr : r.started = x.sched.recover.started) :
    Phase pid w spec (x.next spec (.answer i) { x.sched with recover := r }) := by
  have hkept : (x.next spec (.answer i) { x.sched with recover := r }).kept = x.kept := if_pos rfl
  have hrestored : (x.next spec (.answer i) { x.sched with recover := r }).restored = x.restored := by
    refine if_neg ?_
    show ¬ (x.sched.recover.started = false ∧ r.started = true)
    rw [hr]
    simp
  have hfirst : First pid w spec x →
      First pid w spec (x.next spec (.answer i) { x.sched with recover := r }) :=
    fun hf => ⟨⟨hf.hasSpec, hf.expected, hf.nonneg, hf.le⟩, hf.launches, hf.stored,
      hkept.trans hf.kept, hf.saved⟩
  have hgoing : ∀ {id n}, Going spec x.sched id n → Going spec { x.sched with recover := r } id n :=
    fun hg => ⟨⟨hg.hasSpec, hg.expected, hg.nonneg, hg.le⟩, hg.callback, hr.trans hg.started,
      hg.terminated, hg.finished⟩
  refine ⟨h.current, h.program, ?_⟩
  rcases h.phase with ⟨hf, hg⟩ | ha | hrec | ⟨n, hag⟩
  · exact .inl ⟨hfirst hf, hgoing hg⟩
  · exact .inr (.inl ⟨hfirst ha.toFirst, ha.callback, ha.hasCallback, hr.trans ha.started,
      ha.mailbox⟩)
  · exact .inr (.inr (.inl ⟨hfirst hrec.toFirst, hrec.hasCallback, hr.trans hrec.started,
      hrec.onRecovered, hrestored.trans hrec.restored, hrec.mailbox⟩))
  · refine .inr (.inr (.inr ⟨n, hgoing hag.toGoing, hag.launches, hag.pos, ?_, ?_,
      hag.hasCallback⟩))
    · rw [hkept]
      exact hag.kept
    · rw [hkept]
      exact hag.keptNonneg

theorem Recovering.restored_nonneg (h : Recovering pid w spec x)
    (hci : 1 ≤ spec.checkpointInterval) : 0 ≤ x.restored := by
  rw [h.restored]
  exact Int.mul_nonneg (Int.tdiv_nonneg h.nonneg (by omega)) (by omega)

theorem Recovering.newIter_eq (h : Recovering pid w spec x) (hs : s.control = x.sched.control) :
    s.newIter pid spec = spec.numIter - x.restored := by
  unfold newIter
  rw [h.restored, hs]

/-- The answer that completes the recovery launches the plan again. -/
theorem Recovering.relaunch (h : Recovering pid w spec x) (hmj : w.isMapJoin = true)
    (hspec : w.getMapJoinSpec? = some spec) (hci : 1 ≤ spec.checkpointInterval) (hpid : 0 ≤ pid)
    (hmagic : pid < kRecoverMagic) (hcur : x.sched.status.getCurrentPlans = [pid])
    (hprog : ∀ w ∈ x.sched.specs, ∀ spec, w.getMapJoinSpec? = some spec → spec.numIter ≠ 0)
    (hlt : x.restored < spec.numIter) {r : RecoverManager} {i : Nat}
    (hs : s = { x.sched with recover := r }) (hr : r.started = false)
    (hf : s.finishRecovery = .ok s') : Phase pid w spec (x.next spec (.answer i) s') := by
  have hspecs : s.specs = x.sched.specs := by rw [hs]
  have hnew := h.newIter_eq (s := s) (by rw [hs])
  obtain ⟨status, hcur', rfl⟩ := finishRecovery_cases (by rw [hs]; exact hcur) hpid hmagic
    (by rw [hspecs]; exact h.stored) hmj hspec (by omega) hf
  have hagain := getMapJoinSpec?_again (s.newIter pid spec) (pid + kRecoverMagic) hspec
  have hnonneg := h.restored_nonneg hci
  have hkept : (x.next spec (.answer i) (s.relaunched pid w spec status)).kept = x.restored := by
    refine if_neg fun heq => ?_
    have hlen := congrArg List.length heq
    simp [relaunched, launch, hs] at hlen
  refine ⟨hcur', ?_, .inr (.inr (.inr ⟨s.newIter pid spec, ?_, ?_, ?_, ?_, ?_, ?_⟩))⟩
  · intro w' hw' sp' hsp'
    rcases mem_or_eq_of_mem_set hw' with hmem | rfl
    · exact hprog w' (hspecs ▸ hmem) sp' hsp'
    · cases Option.some.inj (hagain.symm.trans hsp')
      show s.newIter pid spec ≠ 0
      omega
  · exact going_launch hagain rfl rfl rfl (by show 0 ≤ s.newIter pid spec; omega)
      (by subst hs; exact hr) (by subst hs; exact h.mailbox)
  · show s.launches ++ [_] = _
    rw [hs]
    show x.sched.launches ++ [_] = _
    rw [h.launches]
    rfl
  · omega
  · rw [hkept]
    omega
  · rw [hkept]
    exact hnonneg
  · have hne : pid ≠ pid + kRecoverMagic := by
      unfold kRecoverMagic
      omega
    show (update s.control (pid + kRecoverMagic) _ pid).hasCallback = false
    rw [update_of_ne hne, hs]
    exact h.hasCallback

/-! ### Every event -/

theorem step_cases {a : Scheduler.Event} (h : x.step spec a = .ok u) :
    ∃ s', x.sched.step a = .ok s' ∧ u = x.next spec a s' := by
  obtain ⟨s', hs', h⟩ := bind_eq_ok.mp h
  exact ⟨s', hs', (Except.ok.inj h).symm⟩

theorem getRealId_of_lt {id : Int} (h : id < kRecoverMagic) : getRealId id = id :=
  if_neg (by omega)

theorem getRealId_add {id : Int} (h : 0 ≤ id) : getRealId (id + kRecoverMagic) = id := by
  unfold getRealId
  rw [if_pos (by omega)]
  omega

/-- Only the running plan tells the scheduler that it is finished. -/
theorem Phase.mailbox (h : Phase pid w spec x) (hpid : 0 ≤ pid) (hmagic : pid < kRecoverMagic) :
    ∀ id ∈ x.sched.mailbox, getRealId id = pid := by
  have hempty : x.sched.mailbox = [] → ∀ id ∈ x.sched.mailbox, getRealId id = pid := by
    intro hm id hid
    rw [hm] at hid
    cases hid
  have hone : ∀ {id}, getRealId id = pid → x.sched.mailbox = [id] →
      ∀ id ∈ x.sched.mailbox, getRealId id = pid := by
    intro id hreal hm id' hid'
    rw [hm, mem_singleton] at hid'
    rw [hid', hreal]
  rcases h.phase with ⟨hf, hg⟩ | ha | hr | ⟨n, hag⟩
  · rcases hg.finished with ⟨-, hm⟩ | ⟨-, hm, -⟩
    · exact hempty hm
    · exact hone (getRealId_of_lt hmagic) hm
  · exact hempty ha.mailbox
  · exact hempty hr.mailbox
  · rcases hag.finished with ⟨-, hm⟩ | ⟨-, hm, -⟩
    · exact hempty hm
    · exact hone (getRealId_add hpid) hm

/-- What a `kRecovery` finds: the first launch, with its callback in place. -/
theorem Phase.recoverable (h : Phase pid w spec x) (hal : x.Allowed pid (.recovery dead))
    (hrec : x.Recoverable spec (.recovery dead)) :
    First pid w spec x ∧ x.sched.recover.started = false ∧ x.sched.mailbox = [] ∧
      (x.sched.control pid).hasCallback = true := by
  obtain ⟨-, hcb, -⟩ := hal
  have hlen : x.sched.launches.length = 1 := hrec
  rcases h.phase with ⟨hf, hg⟩ | ha | hr | ⟨n, hag⟩
  · rw [hf.running] at hcb
    rcases hg.finished with ⟨-, hm⟩ | ⟨hno, -⟩
    · exact ⟨hf, hg.started, hm, hcb⟩
    · rw [hno] at hcb
      cases hcb
  · exact ⟨ha.toFirst, ha.started, ha.mailbox, ha.hasCallback⟩
  · rw [hr.toFirst.running, hr.hasCallback] at hcb
    cases hcb
  · rw [hag.launches] at hlen
    cases hlen

/-- The recover manager only runs while the plan is recovering. -/
theorem Phase.recovering (h : Phase pid w spec x) (hst : x.sched.recover.started = true) :
    Recovering pid w spec x := by
  have hno : x.sched.recover.started ≠ false := by simp [hst]
  rcases h.phase with ⟨hf, hg⟩ | ha | hr | ⟨n, hag⟩
  · exact absurd hg.started hno
  · exact absurd ha.started hno
  · exact hr
  · exact absurd hag.started hno

variable {s₀ : Scheduler δ} {a : Scheduler.Event}

theorem Phase.step (h : Phase pid w spec x) (hs : Starts s₀ pid w spec) (hpid : 0 ≤ pid)
    (hmagic : pid < kRecoverMagic) (hal : x.Allowed pid a) (hrec : x.Recoverable spec a)
    (hstep : x.step spec a = .ok u) (hcur : pid ∈ u.sched.status.getCurrentPlans) :
    Phase pid w spec u := by
  obtain ⟨s', hs', rfl⟩ := step_cases hstep
  cases a with
  | control ctrl => exact h.control hs.interval hal hs'
  | recovery dead =>
    obtain ⟨hf, hst, hm, hcb⟩ := h.recoverable hal hrec
    have hlost := hal.2.2
    have hab := hf.recovery hs.isMapJoin hst hm h.current hcb hlost hs'
    have heq := recovery_eq h.current hf.stored hs.isMapJoin hlost hcb
    cases Except.ok.inj (heq.symm.trans hs')
    exact ⟨h.current, h.program, .inr (.inl hab)⟩
  | answer i =>
    obtain ⟨r, hr, hs'⟩ := bind_eq_ok.mp hs'
    rcases RecoverManager.answer_cases (mapError_eq_ok.mp hr) with ⟨hinv, hst⟩ | ⟨h₁, h₀, hne⟩
    · rw [if_pos hinv] at hs'
      cases hs'
      exact h.answer_quiet hst
    · rw [if_neg hne] at hs'
      have hrcv := h.recovering h₁
      replace hs' := (congrArg (recovered _) hrcv.onRecovered).symm.trans hs'
      exact hrcv.relaunch hs.isMapJoin hs.hasSpec hs.interval hpid hmagic h.current h.program
        (hrec h₁) rfl h₀ hs'
  | managerDone id => cases hal
  | finishPlan =>
    cases hm : x.sched.mailbox with
    | nil =>
      have hsame : s' = x.sched := by
        have : x.sched.finishPlan = .ok s' := hs'
        unfold finishPlan at this
        rw [hm] at this
        exact (Except.ok.inj this).symm
      subst hsame
      have hnext : x.next spec .finishPlan x.sched = x := by
        simp [next, write]
      rw [hnext]
      exact h
    | cons id mailbox =>
      have hgone := finishPlan_curPlans hs' hm
      rw [h.mailbox hpid hmagic id (by rw [hm]; exact mem_cons_self)] at hgone
      exact absurd hcur hgone

/-- No check of a recovery fails. -/
theorem Phase.step_error (h : Phase pid w spec x) (hs : Starts s₀ pid w spec) (hpid : 0 ≤ pid)
    (hmagic : pid < kRecoverMagic) (hal : x.Allowed pid a) (hrec : x.Recoverable spec a)
    {e : SchedulerCheck} (hstep : x.step spec a = .error e) : ¬ e.OfRecovery := by
  intro he
  have hzero : ¬ ∃ w ∈ x.sched.specs, ∃ spec, w.getMapJoinSpec? = some spec ∧ spec.numIter = 0 :=
    fun ⟨w', hw', sp, hsp, h0⟩ => h.program w' hw' sp hsp h0
  have hstep' : x.sched.step a = .error e := by
    rcases bind_eq_error.mp hstep with hstep | ⟨s', -, hstep⟩
    · exact hstep
    · cases hstep
  cases a with
  | control ctrl => exact onControl_error hstep' he
  | recovery dead =>
    obtain ⟨hf, -, -, hcb⟩ := h.recoverable hal hrec
    have heq := recovery_eq h.current hf.stored hs.isMapJoin hal.2.2 hcb
    cases heq.symm.trans hstep'
  | answer i =>
    rcases bind_eq_error.mp hstep' with hstep' | ⟨r, hr, hstep'⟩
    · obtain ⟨e₀, -, rfl⟩ := mapError_eq_error.mp hstep'
      exact he
    split at hstep'
    · cases hstep'
    · next hne =>
      obtain ⟨hinv, -⟩ | ⟨h₁, -, -⟩ := RecoverManager.answer_cases (mapError_eq_ok.mp hr)
      · exact hne hinv
      have hrcv := h.recovering h₁
      have hlt := hrec h₁
      have hci := hs.interval
      replace hstep' := (congrArg (recovered _) hrcv.onRecovered).symm.trans hstep'
      have hnew := hrcv.newIter_eq (s := { x.sched with recover := r }) rfl
      rcases finishRecovery_error (s := { x.sched with recover := r }) h.current hpid hmagic
        hrcv.stored hs.isMapJoin hs.hasSpec (by omega) hstep' he with h0 | h0
      · rw [hnew] at h0
        omega
      · exact hzero h0
  | managerDone id => cases hal
  | finishPlan => exact hzero (finishPlan_error hstep' he)

theorem Phase.launches (h : Phase pid w spec x) (hn : 1 ≤ spec.numIter) :
    ∀ l ∈ x.sched.launches, 1 ≤ l.2 ∧ l.2 ≤ spec.numIter := by
  have hfirst : First pid w spec x → ∀ l ∈ x.sched.launches, 1 ≤ l.2 ∧ l.2 ≤ spec.numIter := by
    intro hf l hl
    rw [hf.launches, mem_singleton] at hl
    subst hl
    exact ⟨hn, le_refl _⟩
  rcases h.phase with ⟨hf, -⟩ | ha | hr | ⟨n, hag⟩
  · exact hfirst hf
  · exact hfirst ha.toFirst
  · exact hfirst hr.toFirst
  · intro l hl
    have hkept := hag.kept
    have hnonneg := hag.keptNonneg
    have hpos := hag.pos
    rw [hag.launches, mem_cons, mem_singleton] at hl
    rcases hl with rfl | rfl
    · exact ⟨hn, le_refl _⟩
    · dsimp only
      omega

/-- A launch that has ended makes up, with what it started from, the iterations of the plan. -/
theorem Phase.finished (h : Phase pid w spec x) :
    ∀ id ∈ x.sched.mailbox, x.kept + (x.sched.control id).versions = spec.numIter := by
  have hdone : ∀ {id n}, Going spec x.sched id n → x.kept + n = spec.numIter →
      ∀ id ∈ x.sched.mailbox, x.kept + (x.sched.control id).versions = spec.numIter := by
    intro id n hg hsum id' hid'
    rcases hg.finished with ⟨-, hm⟩ | ⟨-, hm, hv⟩
    · rw [hm] at hid'
      cases hid'
    · rw [hm, mem_singleton] at hid'
      rw [hid', hv]
      exact hsum
  rcases h.phase with ⟨hf, hg⟩ | ha | hr | ⟨n, hag⟩
  · exact hdone hg (by rw [hf.kept]; omega)
  · rw [ha.mailbox]
    exact fun _ hid => absurd hid not_mem_nil
  · rw [hr.mailbox]
    exact fun _ hid => absurd hid not_mem_nil
  · exact hdone hag.toGoing hag.kept

end Events

/-- **The iterations of a plan are accounted for.**  Any sequence of messages, of nodes that die
in the first launch, and of answers to the recover manager, as long as what is restored leaves an
iteration: no check of a recovery fails, no launch has more iterations than the plan or none, and
the launch that ends has done the iterations that it was not started from. -/
theorem iterations_accounted {s : Scheduler δ} (hs : Starts s pid w spec)
    (hmagic : pid < kRecoverMagic) :
    (∀ e, s.runPlan pid = .error e → ¬ e.OfRecovery) ∧
    ∀ s₁ x, s.runPlan pid = .ok s₁ →
      Reach (step spec) (fun x a => x.Allowed pid a ∧ x.Recoverable spec a) (start s₁) x →
      pid ∈ x.sched.status.getCurrentPlans →
      (∀ a e, x.Allowed pid a → x.Recoverable spec a → x.step spec a = .error e →
        ¬ e.OfRecovery) ∧
      (∀ l ∈ x.sched.launches, 1 ≤ l.2 ∧ l.2 ≤ spec.numIter) ∧
      ∀ id ∈ x.sched.mailbox, x.kept + (x.sched.control id).versions = spec.numIter := by
  constructor
  · intro e he hrec
    obtain ⟨w', hw', sp, hsp, h0⟩ := runPlan_error he hrec
    exact hs.program w' hw' sp hsp h0
  · intro s₁ x hrun hreach hcur
    have hpid := (runPlan_cases hrun).1
    have hphase : pid ∈ x.sched.status.getCurrentPlans → Phase pid w spec x := by
      refine hreach.induct (P := fun x => pid ∈ x.sched.status.getCurrentPlans → Phase pid w spec x)
        (fun _ => phase_start hs hrun) ?_
      intro y a z _ ih ⟨hal, hrec⟩ hstep hz
      have hy : pid ∈ y.sched.status.getCurrentPlans := by
        cases a with
        | managerDone id => cases hal
        | control ctrl => exact hal.1
        | recovery dead => exact hal.1
        | answer i => exact hal
        | finishPlan => exact hal
      exact (ih hy).step hs hpid hmagic hal hrec hstep hz
    exact ⟨fun a e hal hrec hstep => (hphase hcur).step_error hs hpid hmagic hal hrec hstep,
      (hphase hcur).launches hs.iters, (hphase hcur).finished⟩

/-! ### A plan of one collection on two nodes -/

/-- Map and update of collection 1, with a checkpoint after every iteration. -/
def everyIteration (n : Int) : MapJoinSpec String := ⟨1, 1, 0, n, 0, 1, "/cp", ""⟩

def plain (n : Int) : SpecWrapper String Unit := ⟨.kMapJoin, 0, "", .mapJoin (everyIteration n)⟩

/-- A program of one plan, for a collection that was checkpointed before. -/
def onePlan (n : Int) : Scheduler Unit where
  specs := [plain n]
  runner := .ofDag (.ofProgram [⟨0, [1], [1]⟩])
  status := CollectionStatus.empty.addCP 1 "/start"
  controlSpecs _ := none
  control _ := ⟨∅, ∅, 0, ⟨.ofKeys [] 0, .ofKeys [] 0, .ofKeys [] 0⟩,
    ⟨.ofKeys [] 0, .ofKeys [] 0, .ofKeys [] 0⟩, fun _ => ∅, [], false, []⟩
  expectedVersions _ := 0
  callbacks _ := .finishPlan 0
  cachedPartToNode _ _ := []
  recover := {
    nodes := (OrdSet.empty.insert 1).insert 2
    collectionMap := fun c => if c = 1 then some [1, 2] else none
    loader := ⟨fun _ => 0, fun _ => 0, fun _ => none⟩
    manager := ⟨fun _ => .empty, fun _ => none⟩
    started := false
    callback := false
    recovering := .empty
    updating := .empty
    invoked := 0
    commands := [] }
  onRecovered := .finishRecovery
  mailbox := []
  launches := []

theorem starts_onePlan {n : Int} (hn : 1 ≤ n) :
    Starts (onePlan n) 0 (plain n) (everyIteration n) where
  idle := rfl
  stored := rfl
  isMapJoin := rfl
  hasSpec := rfl
  id := rfl
  iters := hn
  interval := le_refl 1
  program := by
    intro w hw spec hspec
    cases mem_singleton.mp hw
    cases Option.some.inj hspec
    show n ≠ 0
    omega
  started := rfl
  mailbox := rfl
  launches := rfl

/-- One iteration, after which node 2 dies, and what restores the collection but for an answer. -/
def lostOnce : List Scheduler.Event :=
  [.control ⟨.kSetup, 0, 1, 0, 0⟩, .control ⟨.kSetup, 0, 2, 0, 0⟩,
    .control ⟨.kJoin, 1, 1, 0, 0⟩, .control ⟨.kJoin, 1, 2, 0, 1⟩,
    .recovery (OrdSet.empty.insert 2), .control ⟨.kFinish, 0, 1, 0, 0⟩, .answer 0,
    .answer 0]

/-- The last answer and the second launch, to its end. -/
def secondLaunch : List Scheduler.Event :=
  [.answer 0, .control ⟨.kSetup, 0, 1, 10000, 0⟩, .control ⟨.kJoin, 1, 1, 10000, 0⟩,
    .control ⟨.kJoin, 1, 1, 10000, 1⟩, .control ⟨.kFinish, 0, 1, 10000, 0⟩]

/-- A failure after the last iteration launches the plan again with none left, and a second
failure finds no callback to replace. -/
theorem recovery_checks_fail :
    (∃ s₁ x a, (onePlan 1).runPlan 0 = .ok s₁ ∧ Starts (onePlan 1) 0 (plain 1) (everyIteration 1) ∧
      Reach (step (everyIteration 1)) (fun x a => x.Allowed 0 a) (start s₁) x ∧ x.Allowed 0 a ∧
      x.step (everyIteration 1) a = .error .controlRunIter) ∧
    ∃ s₁ x a, (onePlan 2).runPlan 0 = .ok s₁ ∧ Starts (onePlan 2) 0 (plain 2) (everyIteration 2) ∧
      Reach (step (everyIteration 2)) (fun x a => x.Allowed 0 a) (start s₁) x ∧ x.Allowed 0 a ∧
      x.step (everyIteration 2) a = .error .abortCallback := by
  constructor
  · have hrun : ∃ s₁, (onePlan 1).runPlan 0 = .ok s₁ ∧
        RunOk (step (everyIteration 1)) (fun x a => x.Allowed 0 a) (start s₁) lostOnce ∧
        Ends (step (everyIteration 1)) (start s₁) lostOnce fun x =>
          x.Allowed 0 (.answer 0) ∧ x.step (everyIteration 1) (.answer 0) = .error .controlRunIter :=
      ⟨_, rfl, by decide +kernel, by decide +kernel⟩
    obtain ⟨s₁, h₁, hok, x, hx, hal, herr⟩ := hrun
    exact ⟨s₁, x, .answer 0, h₁, starts_onePlan (le_refl 1), reach_of_run_ok _ hok hx, hal, herr⟩
  · have hrun : ∃ s₁, (onePlan 2).runPlan 0 = .ok s₁ ∧
        RunOk (step (everyIteration 2)) (fun x a => x.Allowed 0 a) (start s₁)
          (lostOnce ++ [.answer 0]) ∧
        Ends (step (everyIteration 2)) (start s₁) (lostOnce ++ [.answer 0]) fun x =>
          x.Allowed 0 (.recovery (OrdSet.empty.insert 1)) ∧
          x.step (everyIteration 2) (.recovery (OrdSet.empty.insert 1)) = .error .abortCallback :=
      ⟨_, rfl, by decide +kernel, by decide +kernel⟩
    obtain ⟨s₁, h₁, hok, x, hx, hal, herr⟩ := hrun
    exact ⟨s₁, x, _, h₁, starts_onePlan (by decide), reach_of_run_ok _ hok hx, hal, herr⟩

theorem iterations_accounted_onePlan :
    ∃ s₁ x, (onePlan 2).runPlan 0 = .ok s₁ ∧
      Reach (step (everyIteration 2))
        (fun x a => x.Allowed 0 a ∧ x.Recoverable (everyIteration 2) a) (start s₁) x ∧
      x.sched.launches = [(0, 2), (10000, 1)] ∧ (∀ l ∈ x.sched.launches, 1 ≤ l.2 ∧ l.2 ≤ 2) ∧
      x.sched.mailbox = [10000] ∧ x.kept + (x.sched.control 10000).versions = 2 := by
  have hrun : ∃ s₁, (onePlan 2).runPlan 0 = .ok s₁ ∧
      RunOk (step (everyIteration 2))
        (fun x a => x.Allowed 0 a ∧ x.Recoverable (everyIteration 2) a) (start s₁)
        (lostOnce ++ secondLaunch) ∧
      Ends (step (everyIteration 2)) (start s₁) (lostOnce ++ secondLaunch) fun x =>
        0 ∈ x.sched.status.getCurrentPlans ∧ x.sched.launches = [(0, 2), (10000, 1)] ∧
        x.sched.mailbox = [10000] :=
    ⟨_, rfl, by decide +kernel, by decide +kernel⟩
  obtain ⟨s₁, h₁, hok, x, hx, hcur, hl, hm⟩ := hrun
  have hreach := reach_of_run_ok _ hok hx
  obtain ⟨-, hrange, hsum⟩ := (iterations_accounted (starts_onePlan (by decide))
    (by decide)).2 s₁ x h₁ hreach hcur
  exact ⟨s₁, x, h₁, hreach, hl, hrange, hm, hsum 10000 (by rw [hm]; exact mem_singleton_self _)⟩

end Account

end Tangram
