import Tangram.Lib.Run
import Tangram.Lib.Table
import Tangram.Worker.Control

/-!
# The plan controller

One `PlanController` (`core/worker/plan_controller.cpp`) as a state and its
handlers, without migration.  Every handler is a function on the state that may
stop at a `CHECK`; what it submits to an executor, sends to the scheduler or
sends to a fetcher is appended to a field of the state.

The last fields are not in the source.  They record what has happened to the
join messages: `received`, `ignored` (recognised as duplicates), `applied`
(their update function has run), which tracker entries were dropped
(`forgotten`) and which versions were counted as complete (`completed`).
-/

namespace Tangram

open StepRun

/-! ## State -/

/-- What `Setup` reads from the spec and the engine. -/
structure Spec where
  planId : Int
  nodeId : Int
  mapCollectionId : Int
  updateCollectionId : Int
  /-- `-1` unless the plan is a `kMapWithJoin`. -/
  fetchCollectionId : Int := -1
  numUpstreamPart : Nat
  staleness : Int
  expectedNumIter : Int
  checkpointInterval : Int
  /-- The local partitions of each collection. -/
  partitions : Int → List Int

/-- The `CHECK`s of the handlers, by the function they stand in. -/
inductive Check
  | updateVersionLt | updateVersionNext
  | tryRunSomeMapsHas
  | runMap
  | runJoin | runJoinHas
  | tryCheckpoint | tryCheckpointHas
  | finishCheckpoint
  | joinedBeforeEmpty | joinedBeforeMixed
  | fetchPlan | fetchHas | fetchCollection | fetchRecver
deriving DecidableEq, Repr

/-- A map task of `map_executor_`; `started` once it has passed its first look at
`stop_updateing_partitions_`. -/
structure MapTask where
  partId : Int
  version : Int
  started : Bool
deriving DecidableEq, Repr

/-- A task of `fetch_executor_`. -/
inductive FetchTask (β : Type)
  | join (m : JoinMeta β)
  | checkpoint (partId iter : Int)
  | fetch (f : FetchReq) (version : Int)
deriving DecidableEq, Repr

/-- The map output a task applies. -/
def FetchTask.join? {β : Type} : FetchTask β → Option (JoinMeta β)
  | .join m => some m
  | _ => none

/-- What a task pushes to the controller's own work queue when it is done. -/
inductive Completion
  | kFinishMap (partId : Int) (updateVersion : Bool)
  | kFinishJoin (partId version : Int) (upstreamPartIds : List Int)
  | kFinishFetch (partId upstreamPartId : Int)
  | kFinishCheckpoint (partId : Int)
deriving DecidableEq, Repr

structure PlanController (β : Type) where
  minVersion : Int
  mapVersions : Table Int Int
  updateVersions : Table Int Int
  updateTracker : Int → Int → Finset Int
  pendingUpdates : Int → Int → List (JoinMeta β)
  waitingUpdates : Int → List (VersionedJoinMeta β)
  runningMaps : Finset Int
  /-- part → upstream id, `-1` for a batch or a checkpoint -/
  runningUpdates : Int → Option Int
  runningFetches : Int → Int
  stopUpdateingPartitions : Int → Option Bool
  bufferedRequests : Int → List (VersionedJoinMeta β)
  mapExecutor : List MapTask
  fetchExecutor : List (FetchTask β)
  workQueue : List Completion
  toScheduler : List ControllerMsg
  toFetcher : List FetchReply
  -- the record of the run
  localGrants : List Int
  mapped : List (Int × Int)
  checkpoints : List (Int × Int)
  received : List (JoinMeta β)
  ignored : List (JoinMeta β)
  applied : List (JoinMeta β)
  forgotten : Int → Int → Finset Int
  completed : List (Int × Int)

variable {β : Type}

/-- `Setup`: every local partition at version 0, nothing queued, nothing running. -/
def PlanController.setup (c : Spec) : PlanController β where
  minVersion := 0
  mapVersions := .ofKeys (c.partitions c.mapCollectionId) 0
  updateVersions := .ofKeys (c.partitions c.updateCollectionId) 0
  updateTracker := fun _ _ => ∅
  pendingUpdates := fun _ _ => []
  waitingUpdates := fun _ => []
  runningMaps := ∅
  runningUpdates := fun _ => none
  runningFetches := fun _ => 0
  stopUpdateingPartitions := fun _ => none
  bufferedRequests := fun _ => []
  mapExecutor := []
  fetchExecutor := []
  workQueue := []
  toScheduler := []
  toFetcher := []
  localGrants := []
  mapped := []
  checkpoints := []
  received := []
  ignored := []
  applied := []
  forgotten := fun _ _ => ∅
  completed := []

/-! ## Handlers -/

namespace PlanController

variable (c : Spec)

def setWaiting (s : PlanController β) (p : Int) (q : List (VersionedJoinMeta β)) :
    PlanController β :=
  { s with waitingUpdates := Function.update s.waitingUpdates p q }

def pushWaiting (s : PlanController β) (p : Int) (e : VersionedJoinMeta β) : PlanController β :=
  s.setWaiting p (s.waitingUpdates p ++ [e])

def pushPending (s : PlanController β) (m : JoinMeta β) : PlanController β :=
  { s with
    pendingUpdates := Function.update s.pendingUpdates m.partId
      (Function.update (s.pendingUpdates m.partId) m.version
        (s.pendingUpdates m.partId m.version ++ [m])) }

/-- A message for a partition that is not here. -/
def buffer (s : PlanController β) (e : VersionedJoinMeta β) : PlanController β :=
  { s with
    bufferedRequests := Function.update s.bufferedRequests e.partId
      (s.bufferedRequests e.partId ++ [e]) }

def ignore (s : PlanController β) (m : JoinMeta β) : PlanController β :=
  { s with ignored := s.ignored ++ [m] }

def reportFinishPart (s : PlanController β) (flag : ControllerMsgFlag) (p v : Int) :
    PlanController β :=
  { s with toScheduler := s.toScheduler ++ [⟨flag, v, c.nodeId, c.planId, p⟩] }

/-- `RunMap`: the task goes to `map_executor_`. -/
def runMap (s : PlanController β) (p v : Int) : Except Check (PlanController β) := do
  check .runMap (p ∉ s.runningMaps)
  return { s with
    runningMaps := insert p s.runningMaps
    mapExecutor := s.mapExecutor ++ [⟨p, v, false⟩] }

def isMapRunnable (s : PlanController β) (p : Int) : Bool :=
  if p ∈ s.runningMaps then false
  else if c.mapCollectionId = c.updateCollectionId ∧ (s.runningUpdates p).isSome then false
  else if c.mapCollectionId = c.updateCollectionId ∧ (s.stopUpdateingPartitions p).isSome then false
  else if s.mapVersions.val p = c.expectedNumIter then false
  else decide (s.mapVersions.val p ≤ s.minVersion + c.staleness)

/-- The loop of `TryRunSomeMaps` over `map_versions_`. -/
def runSomeMaps : List Int → PlanController β → Except Check (PlanController β)
  | [], s => .ok s
  | p :: ps, s =>
    if isMapRunnable c s p then do
      check .tryRunSomeMapsHas (p ∈ c.partitions c.mapCollectionId)
      let s ← runMap s p (s.mapVersions.val p)
      runSomeMaps ps s
    else runSomeMaps ps s

def tryRunSomeMaps (s : PlanController β) : Except Check (PlanController β) :=
  if s.minVersion = c.expectedNumIter then .ok s else runSomeMaps c s.mapVersions.keys s

/-- All the upstream ids of a message are applied already, or none is. -/
def isJoinedBefore (s : PlanController β) (m : JoinMeta β) : Except Check Bool :=
  match m.upstream with
  | .ext [] => .error .joinedBeforeEmpty
  | .ext (u :: us) => do
    let result := decide (u ∈ s.updateTracker m.partId m.version)
    check .joinedBeforeMixed
      (∀ w ∈ us, result = decide (w ∈ s.updateTracker m.partId m.version))
    return result
  | .one u => .ok (decide (u ∈ s.updateTracker m.partId m.version))

/-- `numeric_limits<int>::max()`, the version of a collection the plan does not update. -/
def kMaxVersion : Int := 2147483647

/-- The version a fetch of `p` is answered with. -/
def fetchVersion (s : PlanController β) (p : Int) : Int :=
  if c.fetchCollectionId = c.updateCollectionId then s.updateVersions.val p else kMaxVersion

def addRunningFetch (s : PlanController β) (p n : Int) : PlanController β :=
  { s with runningFetches := Function.update s.runningFetches p (s.runningFetches p + n) }

/-- Access to the partition itself is granted; the fetcher sends `kFinishFetch` to release it. -/
def IsGrant (f : FetchReq) : Prop :=
  f.localMode = true ∧ f.version ≠ -1 ∧ getNodeId f.sender = getNodeId f.recver

instance (f : FetchReq) : Decidable (IsGrant f) := by
  unfold IsGrant; infer_instance

/-- `RunFetchRequest`: a grant is answered at once, any other fetch goes to
`fetch_executor_`. -/
def runFetchRequest (s : PlanController β) (f : FetchReq) : PlanController β :=
  { addRunningFetch s f.partId 1 with
    toFetcher :=
      if IsGrant f then s.toFetcher ++ [⟨.kFetchPartReplyLocal, f.sender, f.upstreamPartId,
        f.collectionId, f.partId, fetchVersion c s f.partId, f.version⟩]
      else s.toFetcher
    localGrants := if IsGrant f then s.localGrants ++ [f.partId] else s.localGrants
    fetchExecutor :=
      if IsGrant f then s.fetchExecutor
      else s.fetchExecutor ++ [.fetch f (fetchVersion c s f.partId)] }

/-- The part of `RunJoin` after the duplicate test. -/
def startJoin (s : PlanController β) (m : JoinMeta β) : Except Check (PlanController β) := do
  check .runJoin (s.runningUpdates m.partId = none)
  return { s with
    runningUpdates := Function.update s.runningUpdates m.partId (some m.upstream.partId)
    fetchExecutor := s.fetchExecutor ++ [.join m] }

/-- `RunJoin`; `again` is its call of `TryRunWaitingJoins` when the message is a duplicate. -/
def runJoin (again : PlanController β → Except Check (PlanController β)) (s : PlanController β)
    (m : JoinMeta β) : Except Check (PlanController β) := do
  let joined ← isJoinedBefore s m
  if joined then again (s.ignore m) else startJoin s m

/-- Someone is updating, fetching or mapping the partition. -/
def Blocked (s : PlanController β) (p : Int) : Prop :=
  (s.runningUpdates p).isSome ∨
  (c.fetchCollectionId = c.updateCollectionId ∧ 0 < s.runningFetches p) ∨
  (c.mapCollectionId = c.updateCollectionId ∧ p ∈ s.runningMaps)

instance (s : PlanController β) (p : Int) : Decidable (Blocked c s p) := by
  unfold Blocked; infer_instance

/-- `TryRunWaitingJoins` on the queue it finds; it calls itself through `RunJoin` on what is
left after a duplicate. -/
def runWaitingJoins (p : Int) :
    List (VersionedJoinMeta β) → PlanController β → Except Check (PlanController β)
  | [], s => .ok s
  | e :: rest, s =>
    if Blocked c s p then .ok s
    else
      match e with
      | .join m => runJoin (runWaitingJoins p rest) (s.setWaiting p rest) m
      | .fetch f => .ok (runFetchRequest c (s.setWaiting p rest) f)

def tryRunWaitingJoins (s : PlanController β) (p : Int) : Except Check (PlanController β) :=
  runWaitingJoins c p (s.waitingUpdates p) s

def startPlan (s : PlanController β) : Except Check (PlanController β) := tryRunSomeMaps c s

/-- `min_version_ = v`, and the tracker of the version below is erased. -/
def setMinVersion (s : PlanController β) (v : Int) : PlanController β :=
  { s with
    minVersion := v
    updateTracker := fun p w => if w = v - 1 then ∅ else s.updateTracker p w
    forgotten := fun p w =>
      if w = v - 1 then s.forgotten p w ∪ s.updateTracker p w else s.forgotten p w }

def updateVersion (s : PlanController β) (v : Int) : Except Check (PlanController β) := do
  check .updateVersionLt (v < c.expectedNumIter)
  check .updateVersionNext (v = s.minVersion + 1)
  tryRunSomeMaps c (setMinVersion s v)

/-- The map of `p` no longer runs, and a finished migration of `p` is forgotten. -/
def mapDone (s : PlanController β) (p : Int) : PlanController β :=
  { s with
    runningMaps := s.runningMaps.erase p
    stopUpdateingPartitions :=
      if s.stopUpdateingPartitions p = some true
      then Function.update s.stopUpdateingPartitions p none else s.stopUpdateingPartitions }

/-- `map_versions_[p] += 1`, reported. -/
def countMap (s : PlanController β) (p : Int) : PlanController β :=
  reportFinishPart c { s with mapVersions := s.mapVersions.set p (s.mapVersions.val p + 1) } .kMap p
    (s.mapVersions.val p + 1)

/-- The updates that were pending for version `v` of `p` may run now. -/
def releasePending (s : PlanController β) (p v : Int) : PlanController β :=
  { s with
    waitingUpdates := Function.update s.waitingUpdates p
      (s.waitingUpdates p ++ (s.pendingUpdates p v).map .join)
    pendingUpdates := Function.update s.pendingUpdates p
      (Function.update (s.pendingUpdates p) v []) }

/-- `FinishMap`, with `MIGRATE_JOIN` undefined (the flag of the message is not looked at). -/
def finishMap (s : PlanController β) (p : Int) : Except Check (PlanController β) := do
  let s := mapDone s p
  if p ∉ s.mapVersions.keys then return s
  else
    let last := s.mapVersions.val p
    let s := countMap c s p
    if c.mapCollectionId = c.updateCollectionId then
      let s ← tryRunWaitingJoins c (releasePending s p last) p
      tryRunSomeMaps c s
    else tryRunSomeMaps c s

/-- The checkpoint branch of `TryCheckpoint` is taken. -/
def CheckpointDue (s : PlanController β) (p : Int) : Prop :=
  c.checkpointInterval ≠ 0 ∧ (s.updateVersions.val p).tmod c.checkpointInterval = 0

instance (s : PlanController β) (p : Int) : Decidable (CheckpointDue c s p) := by
  unfold CheckpointDue; infer_instance

/-- The checkpoint occupies the partition as an update does. -/
def startCheckpoint (s : PlanController β) (p : Int) : PlanController β :=
  { s with
    runningUpdates := Function.update s.runningUpdates p (some (-1))
    fetchExecutor := s.fetchExecutor ++
      [.checkpoint p ((s.updateVersions.val p).tdiv c.checkpointInterval)] }

/-- `TryCheckpoint`: whether a checkpoint was started. -/
def tryCheckpoint (s : PlanController β) (p : Int) : Except Check (Bool × PlanController β) :=
  if CheckpointDue c s p then do
    check .tryCheckpoint (s.runningUpdates p = none)
    return (true, startCheckpoint c s p)
  else .ok (false, s)

def releaseUpdate (s : PlanController β) (p : Int) : PlanController β :=
  { s with runningUpdates := Function.update s.runningUpdates p none }

/-- `FinishJoin` up to the test on the tracker: the ids of the message are entered. -/
def trackJoin (s : PlanController β) (p v : Int) (ups : List Int) : PlanController β :=
  { releaseUpdate s p with
    updateTracker := Function.update s.updateTracker p
      (Function.update (s.updateTracker p) v (s.updateTracker p v ∪ ups.toFinset)) }

/-- The tracker of `(p, v)` is full: it is cleared and the version of `p` counted. -/
def completeVersion (s : PlanController β) (p v : Int) : PlanController β :=
  { s with
    updateTracker := Function.update s.updateTracker p (Function.update (s.updateTracker p) v ∅)
    updateVersions := s.updateVersions.set p (s.updateVersions.val p + 1)
    forgotten := Function.update s.forgotten p
      (Function.update (s.forgotten p) v (s.forgotten p v ∪ s.updateTracker p v))
    completed := s.completed ++ [(p, v)] }

/-- `ReportFinishPart` of the update version of `p`. -/
def reportJoin (s : PlanController β) (p : Int) : PlanController β :=
  reportFinishPart c s .kJoin p (s.updateVersions.val p)

def finishJoin (s : PlanController β) (p v : Int) (ups : List Int) :
    Except Check (PlanController β) := do
  let s := trackJoin s p v ups
  if (s.updateTracker p v).card = c.numUpstreamPart then
    let (runcp, s) ← tryCheckpoint c (completeVersion s p v) p
    if runcp then return s else tryRunWaitingJoins c (reportJoin c s p) p
  else tryRunWaitingJoins c s p

def finishCheckpoint (s : PlanController β) (p : Int) : Except Check (PlanController β) := do
  check .finishCheckpoint ((s.runningUpdates p).isSome)
  let s ← tryRunWaitingJoins c (reportJoin c (releaseUpdate s p) p) p
  tryRunSomeMaps c s

def finishFetch (s : PlanController β) (p : Int) : Except Check (PlanController β) :=
  tryRunWaitingJoins c (addRunningFetch s p (-1)) p

def receiveJoin (s : PlanController β) (m : JoinMeta β) : Except Check (PlanController β) := do
  if m.partId ∉ s.updateVersions.keys then return s.buffer (.join m)
  else
    let joined ← isJoinedBefore s m
    let s := { s with received := s.received ++ [m] }
    if joined then return s.ignore m
    else if c.mapCollectionId = c.updateCollectionId ∧ s.mapVersions.val m.partId ≤ m.version then
      return s.pushPending m
    else tryRunWaitingJoins c (s.pushWaiting m.partId (.join m)) m.partId

def receiveFetchRequest (s : PlanController β) (f : FetchReq) :
    Except Check (PlanController β) := do
  check .fetchPlan (f.planId = c.planId)
  check .fetchHas (f.partId ∈ c.partitions f.collectionId)
  check .fetchCollection (f.collectionId = c.fetchCollectionId)
  check .fetchRecver (f.recver = getControllerActorQid c.nodeId)
  if f.collectionId ≠ c.updateCollectionId then return runFetchRequest c s f
  else if f.partId ∉ s.updateVersions.keys then return s.buffer (.fetch f)
  else if (s.runningUpdates f.partId).isSome then return s.pushWaiting f.partId (.fetch f)
  else return runFetchRequest c s f

/-! ## Tasks -/

/-- The task leaves the executor and tells the controller. -/
def abortMap (s : PlanController β) (i : Nat) (t : MapTask) : PlanController β :=
  { s with
    mapExecutor := s.mapExecutor.eraseIdx i
    workQueue := s.workQueue ++ [.kFinishMap t.partId false] }

/-- A map task starts, or is aborted because its partition is migrating. -/
def beginMap (s : PlanController β) (i : Nat) : PlanController β :=
  match s.mapExecutor[i]? with
  | none => s
  | some t =>
    if (s.stopUpdateingPartitions t.partId).isSome then abortMap s i t
    else { s with mapExecutor := s.mapExecutor.set i { t with started := true } }

/-- A started map task ends: its output goes to the delayed combiner, unless its partition
is migrating by now. -/
def endMap (s : PlanController β) (i : Nat) : PlanController β :=
  match s.mapExecutor[i]? with
  | none => s
  | some t =>
    if t.started = false then s
    else if (s.stopUpdateingPartitions t.partId).isSome then abortMap s i t
    else
      { s with
        mapExecutor := s.mapExecutor.eraseIdx i
        mapped := s.mapped ++ [(t.partId, t.version)]
        workQueue := s.workQueue ++ [.kFinishMap t.partId true] }

/-- The answer of `Fetch`. -/
def fetchReply (f : FetchReq) (version : Int) : FetchReply :=
  ⟨if f.version = -1 then .kFetchObjsReply else .kFetchPartReplyRemote, f.sender,
    f.upstreamPartId, f.collectionId, f.partId, version, f.version⟩

/-- A task of `fetch_executor_` has run and tells the controller. -/
def taskDone (s : PlanController β) (i : Nat) (e : Completion) : PlanController β :=
  { s with
    fetchExecutor := s.fetchExecutor.eraseIdx i
    workQueue := s.workQueue ++ [e] }

/-- A task of `fetch_executor_` runs. -/
def execFetch (s : PlanController β) (i : Nat) : Except Check (PlanController β) :=
  match s.fetchExecutor[i]? with
  | none => .ok s
  | some (.join m) => do
    check .runJoinHas (m.partId ∈ c.partitions c.updateCollectionId)
    return { taskDone s i (.kFinishJoin m.partId m.version m.ids) with
      applied := s.applied ++ [m] }
  | some (.checkpoint p iter) => do
    check .tryCheckpointHas (p ∈ c.partitions c.updateCollectionId)
    return { taskDone s i (.kFinishCheckpoint p) with
      checkpoints := s.checkpoints ++ [(p, iter)] }
  | some (.fetch f version) => do
    check .fetchHas (f.partId ∈ c.partitions f.collectionId)
    return { taskDone s i (.kFinishFetch f.partId f.upstreamPartId) with
      toFetcher := s.toFetcher ++ [fetchReply f version] }

/-- `Controller::Process` on a message of the controller's own tasks. -/
def process (s : PlanController β) : Completion → Except Check (PlanController β)
  | .kFinishMap p _ => finishMap c s p
  | .kFinishJoin p v ups => finishJoin c s p v ups
  | .kFinishFetch p _ => finishFetch c s p
  | .kFinishCheckpoint p => finishCheckpoint c s p

/-! ## One step -/

/-- What can happen to a controller: a message from outside, or progress of its own tasks
(named by their place in the executor or the work queue). -/
inductive Action (β : Type)
  | kStart
  | kReceiveJoin (m : JoinMeta β)
  | kFetchRequest (f : FetchReq)
  /-- The local fetcher releases the `i`-th grant. -/
  | releaseFetch (i : Nat)
  | kUpdateVersion (v : Int)
  | beginMap (i : Nat)
  | endMap (i : Nat)
  | execFetch (i : Nat)
  | process (i : Nat)

def takeGrant (s : PlanController β) (i : Nat) : PlanController β :=
  { s with localGrants := s.localGrants.eraseIdx i }

def takeMsg (s : PlanController β) (i : Nat) : PlanController β :=
  { s with workQueue := s.workQueue.eraseIdx i }

def step (s : PlanController β) : Action β → Except Check (PlanController β)
  | .kStart => startPlan c s
  | .kReceiveJoin m => receiveJoin c s m
  | .kFetchRequest f => receiveFetchRequest c s f
  | .releaseFetch i =>
    match s.localGrants[i]? with
    | none => .ok s
    | some p => finishFetch c (takeGrant s i) p
  | .kUpdateVersion v => updateVersion c s v
  | .beginMap i => .ok (beginMap s i)
  | .endMap i => .ok (endMap s i)
  | .execFetch i => execFetch c s i
  | .process i =>
    match s.workQueue[i]? with
    | none => .ok s
    | some e => process c (takeMsg s i) e

/-- The states of every run of a controller whose environment meets `ok`. -/
def ReachIf (ok : PlanController β → Action β → Prop) (s : PlanController β) : Prop :=
  Reach (step c) ok (setup c) s

/-- The states of every run. -/
def Reachable (s : PlanController β) : Prop := ReachIf c (fun _ _ => True) s

end PlanController

end Tangram
