import Tangram.Plan.Spec
import Tangram.Scheduler.ControlManager
import Tangram.Scheduler.DagRunner
import Tangram.Scheduler.RecoverManager

/-!
# The scheduler

`Scheduler` (`core/scheduler/scheduler.cpp`) with the sequential runner: it runs the
plans of a program, enters them into the `CollectionStatus`, and, when nodes die,
aborts the running plan, has its collections restored and launches it again under
another id with the iterations that are left.  The control manager keeps a table of
everything by plan id (`control` has the entry of one plan), so that the tables of
the first launch stay beside those of the second.

The managers of the other plans (`Distribute`, `Load`, `Write`, `Checkpoint`,
`LoadCheckpoint`) are left out but for what they tell the `CollectionStatus`; each
puts a `kFinishPlan` into the mailbox when its plan is done.
-/

namespace Tangram

open StepRun

/-! ## Ids of launches -/

def kRecoverMagic : Int := 10000

def isRecoverPlan (id : Int) : Bool := id ≥ kRecoverMagic

def getRealId (id : Int) : Int := if id ≥ kRecoverMagic then id - kRecoverMagic else id

inductive SchedulerCheck
  | runPlanId | runPlanType
  | controlRunType | controlRunIter
  | abortCallback
  | recoverPlanId
  | recoveryPlans | recoveryType | recoveryReads
  | finishPlans | finishId | finishType | finishInterval
  | reassignCollection | reassignSize
  | collectionMap
  | noSpec
  | status (e : StatusCheck)
  | control (e : ControlCheck)
  | recover (e : RecoverCheck)
  | runner (e : RunnerCheck)
deriving DecidableEq, Repr

namespace SchedulerCheck

/-- The checks of `Scheduler::Recovery`, `Scheduler::FinishRecovery`, `ControlManager::AbortPlan`,
`GetRecoverPlanId` and `ControlManager::RunPlan`. -/
def OfRecovery : SchedulerCheck → Prop
  | controlRunType | controlRunIter | abortCallback | recoverPlanId => True
  | recoveryPlans | recoveryType | recoveryReads => True
  | finishPlans | finishId | finishType | finishInterval => True
  | _ => False

end SchedulerCheck

def getRecoverPlanId (id : Int) : Except SchedulerCheck Int := do
  check .recoverPlanId (isRecoverPlan id = false)
  return id + kRecoverMagic

/-! ## State -/

/-- What is called when all nodes have finished a plan. -/
inductive PlanCallback
  | finishPlan (id : Int)
  | recover (deadNodes : OrdSet Int)

/-- What the recover manager calls. -/
inductive RecoverCallback
  | finishRecovery
  | reassignMap (planId : Int) (reads : List (Int × String))

/-- `recover` also holds the nodes and the collection map.  `mailbox` are the plan ids of the
`kFinishPlan` messages that are not handled, and `launches` the id and the number of iterations
of every launch of a map-join. -/
structure Scheduler (δ : Type) where
  specs : List (SpecWrapper String δ)
  runner : SequentialDagRunner
  status : CollectionStatus
  controlSpecs : Int → Option (SpecWrapper String δ)
  control : Int → ControlManager
  expectedVersions : Int → Int
  callbacks : Int → PlanCallback
  cachedPartToNode : Int → Int → List Int
  recover : RecoverManager
  onRecovered : RecoverCallback
  mailbox : List Int
  launches : List (Int × Int)

/-! ## Specs in the program -/

section Spec

variable {σ δ : Type}

def SpecWrapper.isMapJoin (w : SpecWrapper σ δ) : Bool :=
  w.type = .kMapJoin || w.type = .kMapWithJoin

/-- `mapupdate_spec->num_iter = n`. -/
def SpecWrapper.Spec.setNumIter (n : Int) : SpecWrapper.Spec σ δ → SpecWrapper.Spec σ δ
  | .mapJoin s => .mapJoin { s with numIter := n }
  | .mapWithJoin s => .mapWithJoin { s with numIter := n }
  | s => s

/-- The spec of a plan that is launched again. -/
def SpecWrapper.again (w : SpecWrapper σ δ) (n id : Int) : SpecWrapper σ δ :=
  { w with spec := w.spec.setNumIter n, id := id }

/-- `ReassignMap`, the turn of a partition: the version of the partition is brought to that of the
plan, and the node it goes to is counted anew.  The last `else` counts at the place of the
partition, as the source does. -/
def NodeVersions.reassign (version : Int) (t : NodeVersions) (part toId : Int) : NodeVersions :=
  let t := if t.part.val part ≠ version then { t with part := t.part.set part version } else t
  if t.part.val part < t.node.val toId then
    { t with count := t.count.set toId 1, node := t.node.set toId (t.part.val part) }
  else if t.part.val part = t.node.val toId then
    { t with count := t.count.set part (t.count.val part + 1) }
  else t

end Spec

namespace Scheduler

variable {δ : Type}

def nodes (s : Scheduler δ) : OrdSet Int := s.recover.nodes

def partToNode (s : Scheduler δ) (cid : Int) : List Int := (s.recover.collectionMap cid).getD []

/-- What the control manager reads while it handles a message of plan `id`. -/
def plan (s : Scheduler δ) (id : Int) (spec : MapJoinSpec String) : Plan where
  planId := id
  nodes := s.nodes.elems
  mapPartToNode := s.partToNode spec.mapCollectionId
  updatePartToNode := s.partToNode spec.updateCollectionId
  updateCollectionId := spec.updateCollectionId
  numIter := s.expectedVersions id
  checkpointInterval := spec.checkpointInterval
  checkpointPath := spec.checkpointPath

/-! ## Running plans -/

/-- The tables of a plan that starts; the versions of its partitions are set by `Init`. -/
def launch (s : Scheduler δ) (w : SpecWrapper String δ) (spec : MapJoinSpec String) : Scheduler δ :=
  { s with
    controlSpecs := Function.update s.controlSpecs w.id (some w)
    control := Function.update s.control w.id { s.control w.id with
      isSetup := ∅
      isFinished := ∅
      versions := 0
      hasCallback := true
      broadcasts := [.kSetup] }
    expectedVersions := Function.update s.expectedVersions w.id spec.numIter
    callbacks := Function.update s.callbacks w.id (.finishPlan w.id)
    launches := s.launches ++ [(w.id, spec.numIter)] }

/-- `ControlManager::RunPlan`. -/
def controlRunPlan (s : Scheduler δ) (w : SpecWrapper String δ) :
    Except SchedulerCheck (Scheduler δ) := do
  check .controlRunType (w.isMapJoin = true)
  match w.getMapJoinSpec? with
  | none => .error .noSpec
  | some spec =>
    check .controlRunIter (spec.numIter ≠ 0)
    return s.launch w spec

/-- The managers of the plans. -/
def dispatch (s : Scheduler δ) (w : SpecWrapper String δ) : Except SchedulerCheck (Scheduler δ) :=
  match w.type, w.spec with
  | .kMapJoin, _ => s.controlRunPlan w
  | .kMapWithJoin, _ => s.controlRunPlan w
  | .kCheckpoint, .checkpoint c => .ok { s with status := s.status.addCP c.cid c.url }
  | .kLoadCheckpoint, .loadCheckpoint c => do
    let _ ← (s.status.getLastCP c.cid).mapError .status
    return s
  | .kDistribute, .distribute _ => .ok s
  | .kLoad, .load _ => .ok s
  | .kWrite, .write _ => .ok s
  | .kInit, _ => .error .runPlanType
  | _, _ => .error .noSpec

def runPlan (s : Scheduler δ) (planId : Int) : Except SchedulerCheck (Scheduler δ) := do
  check .runPlanId (0 ≤ planId ∧ planId < s.specs.length)
  match s.specs[planId.toNat]? with
  | none => .error .runPlanId
  | some w =>
    let status ← (s.status.addPlan planId w.getReadWrite).mapError .status
    dispatch { s with status := status } w

def tryRunPlan (s : Scheduler δ) : Except SchedulerCheck (Scheduler δ) :=
  if s.runner.dagVistor.getNumDagNodes = 0 then .ok s
  else do
    let plans ← s.runner.getRunnablePlans.mapError .runner
    plans.foldlM runPlan s

/-- The first `kFinishPlan` of the mailbox. -/
def finishPlan (s : Scheduler δ) : Except SchedulerCheck (Scheduler δ) :=
  match s.mailbox with
  | [] => .ok s
  | planId :: mailbox => do
    let planId := if isRecoverPlan planId then getRealId planId else planId
    let runner ← (s.runner.finish planId).mapError .runner
    let status ← (s.status.finishPlan planId).mapError .status
    tryRunPlan { s with mailbox := mailbox, runner := runner, status := status }

/-! ## Recovery -/

/-- `ControlManager::AbortPlan`. -/
def abortPlan (s : Scheduler δ) (planId : Int) (f : PlanCallback) :
    Except SchedulerCheck (Scheduler δ) := do
  check .abortCallback ((s.control planId).hasCallback = true)
  return { s with
    callbacks := Function.update s.callbacks planId f
    control := Function.update s.control planId
      ((s.control planId).sendToAllControllers .kTerminatePlan) }

def lostWriteCollection (s : Scheduler δ) (deadNodes : OrdSet Int) :
    List Int → Except SchedulerCheck Bool
  | [] => .ok false
  | w :: writes =>
    match s.recover.collectionMap w with
    | none => .error .collectionMap
    | some partToNode =>
      if partToNode.any (· ∈ deadNodes) then .ok true else s.lostWriteCollection deadNodes writes

/-- Only what is read is lost. -/
def recoverReads (s : Scheduler δ) (deadNodes : OrdSet Int) (planId : Int) :
    Except SchedulerCheck (Scheduler δ) := do
  let reads ← s.status.getReadsAndCP.mapError .status
  let recover ← (s.recover.recover deadNodes [] reads).mapError .recover
  return { s with recover := recover, onRecovered := .reassignMap planId reads }

def removeNodes (s : Scheduler δ) (deadNodes : OrdSet Int) : Scheduler δ :=
  { s with recover := { s.recover with nodes := deadNodes.elems.foldl .erase s.recover.nodes } }

/-- `Recovery`, from the plan on. -/
def recoverPlan (s : Scheduler δ) (deadNodes : OrdSet Int) (planId : Int) :
    Except SchedulerCheck (Scheduler δ) :=
  match s.specs[planId.toNat]? with
  | none => .error .noSpec
  | some w => do
    check .recoveryType (w.isMapJoin = true)
    let lost ← s.lostWriteCollection deadNodes s.status.getWrites
    if lost then s.abortPlan planId (.recover deadNodes) else s.recoverReads deadNodes planId

def recovery (s : Scheduler δ) (deadNodes : OrdSet Int) : Except SchedulerCheck (Scheduler δ) :=
  match s.status.getCurrentPlans with
  | [planId] => (s.removeNodes deadNodes).recoverPlan deadNodes planId
  | _ => .error .recoveryPlans

/-- The iterations that the last checkpoint of the plan does not hold. -/
def newIter (s : Scheduler δ) (pid : Int) (spec : MapJoinSpec String) : Int :=
  spec.numIter - (s.control pid).versions.tdiv spec.checkpointInterval * spec.checkpointInterval

/-- What is left is launched again, under another id. -/
def relaunch (s : Scheduler δ) (pid : Int) (w : SpecWrapper String δ) (spec : MapJoinSpec String) :
    Except SchedulerCheck (Scheduler δ) := do
  check .finishInterval (spec.checkpointInterval ≠ 0)
  let id ← getRecoverPlanId pid
  runPlan { s with specs := s.specs.set pid.toNat (w.again (s.newIter pid spec) id) } pid

def finishRecovery (s : Scheduler δ) : Except SchedulerCheck (Scheduler δ) :=
  match s.status.getCurrentPlans with
  | [pid] => do
    let status ← (s.status.finishPlan pid).mapError .status
    check .finishId (0 ≤ pid ∧ pid < s.specs.length)
    match s.specs[pid.toNat]? with
    | none => .error .finishId
    | some w =>
      check .finishType (w.isMapJoin = true)
      match w.getMapJoinSpec? with
      | none => .error .noSpec
      | some spec => relaunch { s with status := status } pid w spec
  | _ => .error .finishPlans

/-- The partitions that are on another node than at `Init`, with that node. -/
def reassignments (cached new : List Int) : List (Int × Int) :=
  ((partsOf new).filter fun p => nodeOf new p ≠ nodeOf cached p).map fun p => (p, nodeOf new p)

def reassignMap (s : Scheduler δ) (planId cid : Int) : Except SchedulerCheck (Scheduler δ) :=
  match (s.controlSpecs planId).bind (·.getMapJoinSpec?) with
  | none => .error .noSpec
  | some spec => do
    check .reassignCollection (cid = spec.mapCollectionId)
    check .reassignSize ((s.cachedPartToNode planId cid).length = (s.partToNode cid).length)
    let control := s.control planId
    let map := (reassignments (s.cachedPartToNode planId cid) (s.partToNode cid)).foldl
      (fun t r => t.reassign control.versions r.1 r.2) control.map
    return { s with
      control := Function.update s.control planId { control with map := map }
      cachedPartToNode := Function.update s.cachedPartToNode planId
        (Function.update (s.cachedPartToNode planId) cid (s.partToNode cid)) }

/-! ## Messages -/

/-- The callback of a plan. -/
def call (s : Scheduler δ) : PlanCallback → Except SchedulerCheck (Scheduler δ)
  | .finishPlan id => .ok { s with mailbox := s.mailbox ++ [id] }
  | .recover deadNodes => do
    let reads ← s.status.getReadsAndCP.mapError .status
    let writes ← s.status.getWritesAndCP.mapError .status
    let recover ← (s.recover.recover deadNodes writes reads).mapError .recover
    return { s with recover := recover, onRecovered := .finishRecovery }

/-- The tables of plan `id` become `control`; checkpoints that were added are entered. -/
def enter (s : Scheduler δ) (id : Int) (spec : MapJoinSpec String) (control : ControlManager) :
    Scheduler δ :=
  { s with
    control := Function.update s.control id control
    status := (control.addedCps.drop (s.control id).addedCps.length).foldl
      (fun status url => status.addCP spec.updateCollectionId url) s.status
    cachedPartToNode :=
      if .kStart ∈ control.broadcasts.drop (s.control id).broadcasts.length then
        Function.update s.cachedPartToNode id (Function.update (s.cachedPartToNode id)
          spec.mapCollectionId (s.partToNode spec.mapCollectionId))
      else s.cachedPartToNode }

/-- `ControlManager::Control`. -/
def onControl (s : Scheduler δ) (ctrl : ControllerMsg) : Except SchedulerCheck (Scheduler δ) :=
  match (s.controlSpecs ctrl.planId).bind (·.getMapJoinSpec?) with
  | none => .error .noSpec
  | some spec => do
    let control ← (ControlManager.control (s.plan ctrl.planId spec) (s.control ctrl.planId) ctrl).mapError
      .control
    if (s.control ctrl.planId).hasCallback = true ∧ control.hasCallback = false then
      (s.enter ctrl.planId spec control).call (s.callbacks ctrl.planId)
    else return s.enter ctrl.planId spec control

/-- The callback of the recover manager. -/
def recovered (s : Scheduler δ) : RecoverCallback → Except SchedulerCheck (Scheduler δ)
  | .finishRecovery => s.finishRecovery
  | .reassignMap planId reads => do
    check .recoveryReads (reads.length = 1)
    s.reassignMap planId ((reads.map Prod.fst).getD 0 0)

/-- The answer to the `i`-th command of the recover manager. -/
def onAnswer (s : Scheduler δ) (i : Nat) : Except SchedulerCheck (Scheduler δ) := do
  let recover ← (s.recover.answer i).mapError .recover
  if recover.invoked = s.recover.invoked then return { s with recover := recover }
  else recovered { s with recover := recover } s.onRecovered

inductive Event
  | control (ctrl : ControllerMsg)
  | recovery (deadNodes : OrdSet Int)
  | answer (i : Nat)
  | managerDone (planId : Int)
  | finishPlan

/-- `Process`. -/
def step (s : Scheduler δ) : Event → Except SchedulerCheck (Scheduler δ)
  | .control ctrl => s.onControl ctrl
  | .recovery deadNodes => s.recovery deadNodes
  | .answer i => s.onAnswer i
  | .managerDone planId => .ok { s with mailbox := s.mailbox ++ [planId] }
  | .finishPlan => s.finishPlan

end Scheduler

/-! ## What the steps do -/

namespace CollectionStatus

variable {s s' : CollectionStatus} {id : Int}

theorem addPlan_cases {p : ReadWriteVector} (h : s.addPlan id p = .ok s') :
    id ∉ s.curPlans.keys ∧ s'.curPlans = s.curPlans.set id p ∧ s'.lastCp = s.lastCp := by
  obtain ⟨_, hid, h⟩ := bind_eq_ok.mp h
  refine ⟨check_eq_ok.mp hid, ?_⟩
  refine foldlM_induct (P := fun t => t.curPlans = s.curPlans.set id p ∧ t.lastCp = s.lastCp)
    p.second ⟨rfl, rfl⟩ ?_ h
  intro t w u _ ht hw
  obtain ⟨-, -, hw⟩ := bind_eq_ok.mp hw
  obtain ⟨-, -, hw⟩ := bind_eq_ok.mp hw
  cases hw
  exact ht

theorem finishPlan_cases (h : s.finishPlan id = .ok s') :
    id ∈ s.curPlans.keys ∧ s'.curPlans = s.curPlans.erase id ∧ s'.lastCp = s.lastCp := by
  obtain ⟨_, hid, h⟩ := bind_eq_ok.mp h
  obtain ⟨r, -, h⟩ := bind_eq_ok.mp h
  obtain ⟨w, -, h⟩ := bind_eq_ok.mp h
  cases h
  exact ⟨check_eq_ok.mp hid, rfl, rfl⟩

theorem getCurrentPlans_set (p : ReadWriteVector) (h : s.getCurrentPlans = [])
    (hs : s'.curPlans = s.curPlans.set id p) : s'.getCurrentPlans = [id] := by
  have hnot : id ∉ s.curPlans.keys.elems := by
    show id ∉ s.getCurrentPlans
    rw [h]
    exact List.not_mem_nil
  show s'.curPlans.keys.elems = [id]
  rw [hs, OrdMap.keys_set, OrdSet.insert, dif_neg hnot]
  show s.getCurrentPlans.orderedInsert _ id = [id]
  rw [h]
  rfl

theorem getCurrentPlans_erase (h : s.getCurrentPlans = [id]) (hs : s'.curPlans = s.curPlans.erase id) :
    s'.getCurrentPlans = [] := by
  show s'.curPlans.keys.elems = []
  rw [hs, OrdMap.keys_erase, OrdSet.erase]
  show s.getCurrentPlans.filter _ = []
  rw [h]
  simp

end CollectionStatus

namespace RecoverManager

variable {s s' : RecoverManager}

/-- `recover` starts a recovery and does not call back. -/
theorem recover_cases {dead : OrdSet Int} {writes reads : List (Int × String)}
    (h : s.recover dead writes reads = .ok s') :
    s.started = false ∧ s'.started = true ∧ s'.invoked = s.invoked := by
  obtain ⟨_, hst, h⟩ := bind_eq_ok.mp h
  obtain ⟨s₁, h₁, h⟩ := bind_eq_ok.mp h
  obtain ⟨s₂, h₂, h⟩ := bind_eq_ok.mp h
  cases h
  have hmap : ∀ (l : List (Int × String)) (t : RecoverManager), (l.foldl updateMap t).started = t.started ∧
      (l.foldl updateMap t).invoked = t.invoked := by
    intro l
    induction l with
    | nil => exact fun t => ⟨rfl, rfl⟩
    | cons x l ih => exact fun t => ih (t.updateMap x)
  have hsend : ∀ (c : Int) (l : List Int) (t u : RecoverManager) (url : String) (m : List Int),
      l.foldlM (loadPart c url m) t = .ok u → u.started = t.started ∧ u.invoked = t.invoked := by
    intro c l t u url m hu
    refine foldlM_induct (P := fun u => u.started = t.started ∧ u.invoked = t.invoked) l ⟨rfl, rfl⟩
      ?_ hu
    intro v p w _ hv hw
    obtain ⟨-, -, hw⟩ := bind_eq_ok.mp hw
    cases hw
    exact hv
  have hw : s₁.started = true ∧ s₁.invoked = s.invoked := by
    refine foldlM_induct (P := fun u => u.started = true ∧ u.invoked = s.invoked) writes ⟨rfl, rfl⟩
      ?_ h₁
    intro t w u _ ht hu
    obtain ⟨⟨ups, t₁⟩, hr, hu⟩ := bind_eq_ok.mp hu
    obtain ⟨m, -, hr⟩ := bind_eq_ok.mp hr
    cases hr
    obtain ⟨m', -, hu⟩ := bind_eq_ok.mp hu
    cases hu
    rw [foldl_sendLoad]
    exact ht
  have hrd : s₂.started = true ∧ s₂.invoked = s.invoked := by
    refine foldlM_induct (P := fun u => u.started = true ∧ u.invoked = s.invoked) reads hw ?_ h₂
    intro t r u _ ht hu
    obtain ⟨⟨ups, t₁⟩, hr, hu⟩ := bind_eq_ok.mp hu
    obtain ⟨m, -, hr⟩ := bind_eq_ok.mp hr
    cases hr
    obtain ⟨m', -, hu⟩ := bind_eq_ok.mp hu
    obtain ⟨h₁, h₂⟩ := hsend _ _ _ _ _ _ hu
    exact ⟨h₁.trans ht.1, h₂.trans ht.2⟩
  obtain ⟨hr₁, hr₂⟩ := hmap reads (writes.foldl updateMap s₂)
  obtain ⟨hw₁, hw₂⟩ := hmap writes s₂
  exact ⟨check_eq_ok.mp hst, hr₁.trans (hw₁.trans hrd.1), hr₂.trans (hw₂.trans hrd.2)⟩

theorem recoverDone_cases {cid : Int} {type : RecoverType} (h : s.recoverDone cid type = .ok s') :
    (s'.invoked = s.invoked ∧ s'.started = s.started) ∨
      (s.started = true ∧ s'.started = false ∧ s'.invoked ≠ s.invoked) := by
  obtain ⟨_, hst, h⟩ := bind_eq_ok.mp h
  obtain ⟨s₁, h₁, h⟩ := bind_eq_ok.mp h
  have hsame : s₁.invoked = s.invoked ∧ s₁.started = s.started := by
    cases type <;>
    · obtain ⟨-, -, h₁⟩ := bind_eq_ok.mp h₁
      cases h₁
      exact ⟨rfl, rfl⟩
  split at h
  · obtain ⟨-, -, h⟩ := bind_eq_ok.mp h
    cases h
    refine .inr ⟨check_eq_ok.mp hst, rfl, ?_⟩
    show s₁.invoked + 1 ≠ s.invoked
    omega
  · cases h
    exact .inl hsame

/-- An answer that does not call back leaves the recovery running. -/
theorem answer_cases {i : Nat} (h : s.answer i = .ok s') :
    (s'.invoked = s.invoked ∧ s'.started = s.started) ∨
      (s.started = true ∧ s'.started = false ∧ s'.invoked ≠ s.invoked) := by
  have hcall : ∀ (t : RecoverManager) (f : Callback) (u : RecoverManager), t.call f = .ok u →
      (u.invoked = t.invoked ∧ u.started = t.started) ∨
        (t.started = true ∧ u.started = false ∧ u.invoked ≠ t.invoked) := by
    intro t f u hu
    cases f with
    | recoverDone cid type => exact recoverDone_cases hu
    | other =>
      cases hu
      exact .inl ⟨rfl, rfl⟩
  unfold answer finishLoadCheckpoint finishUpdate at h
  split at h
  · cases h
    exact .inl ⟨rfl, rfl⟩
  -- the last answer of a load and that of a new map are handled alike
  all_goals
    dsimp only at h
    split at h
    · split at h
      · cases h
      · next hf =>
        obtain ⟨u, hu, h⟩ := bind_eq_ok.mp h
        have := hcall _ _ _ hu
        cases h
        exact this
    · cases h
      exact .inl ⟨rfl, rfl⟩

end RecoverManager

namespace ControlManager

variable {plan : Plan} {s s' : ControlManager}

/-- The least version of the plan rises by one. -/
structure Rises (plan : Plan) (s s' : ControlManager) : Prop where
  versions : s'.versions = s.versions + 1
  hasCallback : s'.hasCallback = s.hasCallback
  addedCps : s'.addedCps =
    if plan.checkpointInterval ≠ 0 ∧ (s.versions + 1).tmod plan.checkpointInterval = 0
    then s.addedCps ++ [cpUrl plan ((s.versions + 1).tdiv plan.checkpointInterval)] else s.addedCps
  terminated : .kTerminatePlan ∈ s'.broadcasts ↔
    .kTerminatePlan ∈ s.broadcasts ∨ s.versions + 1 = plan.numIter

theorem updateVersion_cases (h : updateVersion plan s = .ok s') : Rises plan s s' := by
  unfold updateVersion at h
  have hann : ∀ {t : ControlManager}, announce plan t = s' →
      s'.versions = t.versions ∧ s'.hasCallback = t.hasCallback ∧ s'.addedCps = t.addedCps ∧
      (.kTerminatePlan ∈ s'.broadcasts ↔
        .kTerminatePlan ∈ t.broadcasts ∨ t.versions = plan.numIter) := by
    rintro t rfl
    unfold announce
    split
    · next hn => exact ⟨rfl, rfl, rfl, by simp [sendToAllControllers, hn]⟩
    · next hn => exact ⟨rfl, rfl, rfl, by simp [sendToAllControllers, hn]⟩
  dsimp only at h
  split at h
  · next hc =>
    obtain ⟨s₁, h₁, h⟩ := bind_eq_ok.mp h
    obtain ⟨_, -, h₁⟩ := bind_eq_ok.mp h₁
    cases h₁
    obtain ⟨hv, hcb, hcp, ht⟩ := hann (Except.ok.inj h)
    exact ⟨hv, hcb, by rw [hcp, if_pos hc], ht⟩
  · next hc =>
    obtain ⟨hv, hcb, hcp, ht⟩ := hann (Except.ok.inj h)
    exact ⟨hv, hcb, by rw [hcp, if_neg hc], ht⟩

/-- What a message changes of what the scheduler looks at: the last `kFinish` takes the callback,
a `kJoin` may raise the version. -/
theorem control_cases {ctrl : ControllerMsg} (hcp : ctrl.flag ≠ .kFinishCP)
    (h : s.control plan ctrl = .ok s') :
    (s'.versions = s.versions ∧ s'.addedCps = s.addedCps ∧
      (.kTerminatePlan ∈ s'.broadcasts ↔ .kTerminatePlan ∈ s.broadcasts) ∧
      (s'.hasCallback = s.hasCallback ∨
        (ctrl.flag = .kFinish ∧ s.hasCallback = true ∧ s'.hasCallback = false))) ∨
    (ctrl.flag = .kJoin ∧ Rises plan s s') := by
  unfold control at h
  split at h
  · left
    dsimp only at h
    split at h <;> cases h
    · exact ⟨rfl, rfl, by simp [init, sendToAllControllers], .inl rfl⟩
    · exact ⟨rfl, rfl, Iff.rfl, .inl rfl⟩
  · left
    obtain ⟨⟨b, t⟩, -, h⟩ := bind_eq_ok.mp h
    cases h
    exact ⟨rfl, rfl, Iff.rfl, .inl rfl⟩
  · next hf =>
    obtain ⟨⟨b, t⟩, -, h⟩ := bind_eq_ok.mp h
    dsimp only at h
    split at h
    · split at h
      · right
        have hr := updateVersion_cases h
        exact ⟨hf, hr.versions, hr.hasCallback, hr.addedCps, hr.terminated⟩
      · left
        cases h
        exact ⟨rfl, rfl, Iff.rfl, .inl rfl⟩
    · left
      cases h
      exact ⟨rfl, rfl, Iff.rfl, .inl rfl⟩
  · next hf =>
    left
    dsimp only at h
    split at h
    · obtain ⟨_, hc, h⟩ := bind_eq_ok.mp h
      cases h
      exact ⟨rfl, rfl, Iff.rfl, .inr ⟨hf, check_eq_ok.mp hc, rfl⟩⟩
    · cases h
      exact ⟨rfl, rfl, Iff.rfl, .inl rfl⟩
  · left
    cases h
    exact ⟨rfl, rfl, Iff.rfl, .inl rfl⟩
  · next hf => exact absurd hf hcp

end ControlManager

namespace Scheduler

variable {δ : Type} {s s' : Scheduler δ} {w : SpecWrapper String δ} {e : SchedulerCheck}
  {id planId : Int} {mailbox : List Int}

theorem controlRunPlan_cases (h : s.controlRunPlan w = .ok s') :
    w.isMapJoin = true ∧ ∃ spec, w.getMapJoinSpec? = some spec ∧ s' = s.launch w spec := by
  obtain ⟨_, hw, h⟩ := bind_eq_ok.mp h
  refine ⟨check_eq_ok.mp hw, ?_⟩
  split at h
  · cases h
  · next spec hs =>
    obtain ⟨_, -, h⟩ := bind_eq_ok.mp h
    exact ⟨spec, hs, (Except.ok.inj h).symm⟩

theorem dispatch_of_isMapJoin (s : Scheduler δ) (h : w.isMapJoin = true) :
    s.dispatch w = s.controlRunPlan w := by
  have hw : w.type = .kMapJoin ∨ w.type = .kMapWithJoin := by
    simpa [SpecWrapper.isMapJoin] using h
  unfold dispatch
  rcases hw with hw | hw <;> rw [hw]

/-- A manager enters no plan and takes none out. -/
theorem dispatch_curPlans (h : s.dispatch w = .ok s') : s'.status.curPlans = s.status.curPlans := by
  unfold dispatch at h
  split at h
  · obtain ⟨-, spec, -, rfl⟩ := controlRunPlan_cases h
    rfl
  · obtain ⟨-, spec, -, rfl⟩ := controlRunPlan_cases h
    rfl
  · cases h
    rfl
  · obtain ⟨_, -, h⟩ := bind_eq_ok.mp h
    cases h
    rfl
  iterate 3
    · cases h
      rfl
  · cases h
  · cases h

/-- Of the checks of a recovery a manager can only miss the one for `num_iter`. -/
theorem dispatch_error (h : s.dispatch w = .error e) (he : e.OfRecovery) :
    ∃ spec, w.getMapJoinSpec? = some spec ∧ spec.numIter = 0 := by
  have hrun : w.isMapJoin = true → s.controlRunPlan w = .error e →
      ∃ spec, w.getMapJoinSpec? = some spec ∧ spec.numIter = 0 := by
    intro hw h
    rcases bind_eq_error.mp h with h | ⟨_, -, h⟩
    · exact absurd hw (check_eq_error.mp h).1
    · split at h
      · cases h
        exact False.elim he
      · next spec hs =>
        rcases bind_eq_error.mp h with h | ⟨_, -, h⟩
        · exact ⟨spec, hs, not_not.mp (check_eq_error.mp h).1⟩
        · cases h
  unfold dispatch at h
  split at h
  · next hw => exact hrun (by simp [SpecWrapper.isMapJoin, hw]) h
  · next hw => exact hrun (by simp [SpecWrapper.isMapJoin, hw]) h
  · cases h
  · rcases bind_eq_error.mp h with h | ⟨_, -, h⟩
    · obtain ⟨e₀, -, rfl⟩ := mapError_eq_error.mp h
      exact False.elim he
    · cases h
  iterate 3 cases h
  iterate 2
    · cases h
      exact False.elim he

theorem runPlan_cases (h : s.runPlan id = .ok s') :
    0 ≤ id ∧ ∃ w status, s.specs[id.toNat]? = some w ∧
      s.status.addPlan id w.getReadWrite = .ok status ∧
      dispatch { s with status := status } w = .ok s' := by
  obtain ⟨_, hid, h⟩ := bind_eq_ok.mp h
  refine ⟨(check_eq_ok.mp hid).1, ?_⟩
  split at h
  · cases h
  · next w hw =>
    obtain ⟨status, hst, h⟩ := bind_eq_ok.mp h
    exact ⟨w, status, hw, mapError_eq_ok.mp hst, h⟩

theorem runPlan_error (h : s.runPlan id = .error e) (he : e.OfRecovery) :
    ∃ w ∈ s.specs, ∃ spec, w.getMapJoinSpec? = some spec ∧ spec.numIter = 0 := by
  rcases bind_eq_error.mp h with h | ⟨_, -, h⟩
  · obtain ⟨-, rfl⟩ := check_eq_error.mp h
    exact False.elim he
  · split at h
    · cases h
      exact False.elim he
    · next w hw =>
      rcases bind_eq_error.mp h with h | ⟨_, -, h⟩
      · obtain ⟨e₀, -, rfl⟩ := mapError_eq_error.mp h
        exact False.elim he
      · exact ⟨w, List.mem_of_getElem? hw, dispatch_error h he⟩

theorem tryRunPlan_error (h : s.tryRunPlan = .error e) (he : e.OfRecovery) :
    ∃ w ∈ s.specs, ∃ spec, w.getMapJoinSpec? = some spec ∧ spec.numIter = 0 := by
  unfold tryRunPlan at h
  split at h
  · cases h
  · rcases bind_eq_error.mp h with h | ⟨plans, hp, h⟩
    · obtain ⟨e₀, -, rfl⟩ := mapError_eq_error.mp h
      exact False.elim he
    · obtain ⟨_, -, hp⟩ := bind_eq_ok.mp (mapError_eq_ok.mp hp)
      cases hp
      rw [List.foldlM_cons] at h
      rcases bind_eq_error.mp h with h | ⟨t, -, h⟩
      · exact runPlan_error h he
      · cases h

/-- The sequential runner starts one plan, if there is one left. -/
theorem tryRunPlan_cases (h : s.tryRunPlan = .ok s') :
    s' = s ∨ s.runPlan s.runner.planCount = .ok s' := by
  unfold tryRunPlan at h
  split at h
  · exact .inl (Except.ok.inj h).symm
  · obtain ⟨plans, hp, h⟩ := bind_eq_ok.mp h
    obtain ⟨_, -, hp⟩ := bind_eq_ok.mp (mapError_eq_ok.mp hp)
    cases hp
    rw [List.foldlM_cons] at h
    obtain ⟨t, ht, h⟩ := bind_eq_ok.mp h
    cases h
    exact .inr ht

theorem tryRunPlan_curPlans (h : s.tryRunPlan = .ok s') (hid : id ≠ s.runner.planCount)
    (hs : id ∉ s.status.curPlans.keys) : id ∉ s'.status.curPlans.keys := by
  rcases tryRunPlan_cases h with rfl | h
  · exact hs
  · obtain ⟨-, w, status, -, hadd, hd⟩ := runPlan_cases h
    rw [dispatch_curPlans hd, (CollectionStatus.addPlan_cases hadd).2.1, OrdMap.keys_set,
      OrdSet.mem_insert]
    exact fun hmem => hmem.elim hid hs

theorem finishPlan_error (h : s.finishPlan = .error e) (he : e.OfRecovery) :
    ∃ w ∈ s.specs, ∃ spec, w.getMapJoinSpec? = some spec ∧ spec.numIter = 0 := by
  unfold finishPlan at h
  split at h
  · cases h
  · rcases bind_eq_error.mp h with h | ⟨runner, -, h⟩
    · obtain ⟨e₀, -, rfl⟩ := mapError_eq_error.mp h
      exact False.elim he
    rcases bind_eq_error.mp h with h | ⟨status, -, h⟩
    · obtain ⟨e₀, -, rfl⟩ := mapError_eq_error.mp h
      exact False.elim he
    have hzero := tryRunPlan_error h he
    exact hzero

/-- `kFinishPlan` of a launch finishes the plan of the program. -/
theorem finishPlan_eq (hm : s.mailbox = planId :: mailbox) :
    s.finishPlan = (do
      let runner ← (s.runner.finish (getRealId planId)).mapError .runner
      let status ← (s.status.finishPlan (getRealId planId)).mapError .status
      tryRunPlan { s with mailbox := mailbox, runner := runner, status := status }) := by
  have hreal : (if isRecoverPlan planId then getRealId planId else planId) = getRealId planId := by
    unfold isRecoverPlan getRealId
    split <;> simp_all
  unfold finishPlan
  rw [hm]
  dsimp only
  rw [hreal]

theorem finishPlan_cases (h : s.finishPlan = .ok s') (hm : s.mailbox = planId :: mailbox) :
    ∃ runner status, getRealId planId = s.runner.planCount ∧
      runner.planCount = s.runner.planCount + 1 ∧
      s.status.finishPlan (getRealId planId) = .ok status ∧
      tryRunPlan { s with mailbox := mailbox, runner := runner, status := status } = .ok s' := by
  rw [finishPlan_eq hm] at h
  obtain ⟨runner, hr, h⟩ := bind_eq_ok.mp h
  obtain ⟨status, hst, h⟩ := bind_eq_ok.mp h
  obtain ⟨_, hc, hr⟩ := bind_eq_ok.mp (mapError_eq_ok.mp hr)
  obtain ⟨v, -, hr⟩ := bind_eq_ok.mp hr
  cases hr
  exact ⟨_, status, check_eq_ok.mp hc, rfl, mapError_eq_ok.mp hst, h⟩

/-- A plan whose `kFinishPlan` is handled does not run any more. -/
theorem finishPlan_curPlans (h : s.finishPlan = .ok s') (hm : s.mailbox = planId :: mailbox) :
    getRealId planId ∉ s'.status.curPlans.keys := by
  obtain ⟨runner, status, hcount, hnext, hst, h⟩ := finishPlan_cases h hm
  obtain ⟨-, hcur, -⟩ := CollectionStatus.finishPlan_cases hst
  refine tryRunPlan_curPlans h (by dsimp only; omega) ?_
  dsimp only
  rw [hcur, OrdMap.keys_erase, OrdSet.mem_erase]
  exact fun hmem => hmem.1 rfl

end Scheduler

end Tangram
