import Tangram.Lib.Multimap
import Tangram.Partition.Lookup
import Tangram.Plan.MapJoin
import Tangram.Scheduler.BatchMigrate

/-!
# Migration at a node

The handlers of `kMigratePartition` (`core/worker/plan_controller.cpp`) for an update
partition that moves with its books, with `MIGRATE_JOIN` undefined.  A `Site` is a plan
controller together with what these handlers read and write besides: the update
partitions of the node, its collection map, its stream store and the flush counts.

A handler returns the site with the messages it sends: over the network, to the node's
own work queue, or there after a while.
-/

namespace Tangram

open StepRun

variable {K M O B : Type}

/-! ## Messages -/

/-- The books of a partition. -/
structure MigrateData (B : Type) where
  mapVersion : Int
  updateVersion : Int
  /-- by version -/
  pendingUpdates : List (Int × List (VersionedJoinMeta (List B)))
  waitingUpdates : List (VersionedJoinMeta (List B))
  updateTracker : Int → Finset Int

/-- `again` says that the handler itself has put the signal back (a record of the run). -/
inductive Wire (K O B : Type)
  | join (m : JoinMeta (List B))
  | kStartMigrate (info : MigrateMeta) (view : List Int)
  | kFlushAll (info : MigrateMeta) (again : Bool)
  | kDest (info : MigrateMeta) (data : MigrateData B) (bin : List (BinItem K O))

/-- The `CHECK`s of the migration handlers, and those of the functions they call. -/
inductive SiteCheck
  | startCollection | startUpdate | startStop
  | flushFrom | flushFlag | flushStop | flushStream | flushHas
  | destTo | destFlag | destMap | destUpdate | destEntries | destRequest | destBin | destHas
  | insert | get
  | controller (e : Check)
deriving DecidableEq, Repr

/-! ## State -/

structure Site (K M O B : Type) where
  /-- Its `pendingUpdates` are only used within a step; between steps they are in `pending`,
  which can also hold fetches. -/
  pc : PlanController (List B)
  /-- `pending_updates_`, by part and version. -/
  pending : Multimap (Int × Int) (VersionedJoinMeta (List B))
  streamStore : Int × List Int × Int → Option (List (K × M))
  /-- `collection_map`, for the update collection. -/
  partToNode : List Int
  /-- `partition_manager`, for the update collection. -/
  parts : Table Int (IndexedSeqPartition K O)
  flushAllCount : Int → Int
  loadFinished : Int → Bool
  /-- The partitions that may have an entry in `pending_updates_`, `waiting_updates_` or
  `update_tracker_`: it may be empty, but `find` sees it. -/
  entries : Finset Int

/-- What a handler leaves and sends. -/
structure Handled (K M O B : Type) where
  site : Site K M O B
  sent : List (Int × Wire K O B) := []
  pushed : List (Wire K O B) := []
  delayed : List (Wire K O B) := []

def VersionedJoinMeta.version {β : Type} : VersionedJoinMeta β → Int
  | .join m => m.version
  | .fetch f => f.version

namespace Site

section Model

variable (job : MapJoin K M O B) (n : Int)

/-- After `Setup`. -/
def init : Site K M O B where
  pc := .setup (job.spec n)
  pending := .empty
  streamStore := fun _ => none
  partToNode := job.partToNode job.updateCollectionId
  parts := ⟨owned (job.partToNode job.updateCollectionId) n, job.initial⟩
  flushAllCount := fun _ => 0
  loadFinished := fun _ => false
  entries := ∅

/-- The update partitions of the node are those that `partition_manager` has by now. -/
def spec (x : Site K M O B) : Spec :=
  { job.spec n with
    partitions := fun cid => if cid = job.updateCollectionId then x.parts.keys
      else owned (job.partToNode cid) n }

/-- The plan maps the collection that it updates. -/
abbrev Same : Prop := job.mapCollectionId = job.updateCollectionId

/-! ## The handlers of the plan controller -/

/-- `FinishMap` of a local partition releases what is pending for the version. -/
def release (x : Site K M O B) (p v : Int) : Site K M O B :=
  { x with
    pc := x.pc.setWaiting p (x.pc.waitingUpdates p ++ x.pending.val (p, v))
    pending := x.pending.erase (p, v) }

/-- What `ReceiveJoin` has put into the queue of version `v` of `p`. -/
def collect (x : Site K M O B) (p v : Int) : Site K M O B :=
  { x with
    pc := { x.pc with pendingUpdates := fun _ _ => [] }
    pending := (x.pc.pendingUpdates p v).foldl (fun q m => q.push (p, v) (.join m)) x.pending }

/-- The partition whose queues or tracker an action looks up. -/
def touched (x : Site K M O B) : PlanController.Action (List B) → Option Int
  | .kReceiveJoin m => if m.partId ∈ x.pc.updateVersions.keys then some m.partId else none
  | .kFetchRequest f =>
    if f.collectionId = job.updateCollectionId ∧ f.partId ∈ x.pc.updateVersions.keys
    then some f.partId else none
  | .releaseFetch i => x.pc.localGrants[i]?
  | .process i =>
    match x.pc.workQueue[i]? with
    | none => none
    | some (.kFinishMap p _) => if Same job ∧ p ∈ x.pc.mapVersions.keys then some p else none
    | some (.kFinishJoin p _ _) | some (.kFinishFetch p _) | some (.kFinishCheckpoint p) => some p
  | _ => none

/-- What is released before the action. -/
def before (x : Site K M O B) : PlanController.Action (List B) → Site K M O B
  | .process i =>
    match x.pc.workQueue[i]? with
    | some (.kFinishMap p _) =>
      if Same job ∧ p ∈ x.pc.mapVersions.keys then x.release p (x.pc.mapVersions.val p) else x
    | _ => x
  | _ => x

def after (x : Site K M O B) : PlanController.Action (List B) → Site K M O B
  | .kReceiveJoin m => x.collect m.partId m.version
  | _ => x

/-- The key of a message in the stream store. -/
def streamKey (m : JoinMeta (List B)) : Int × List Int × Int := (m.partId, m.ids, m.version)

/-- The content of a partition. -/
def setPart (x : Site K M O B) (p : Int) (part : IndexedSeqPartition K O) : Site K M O B :=
  { x with parts := ⟨x.parts.keys, Function.update x.parts.val p part⟩ }

/-- The update function of `RunJoin`, with the stream of a message in local mode. -/
def runUpdate [LinearOrder K] (x : Site K M O B) (m : JoinMeta (List B)) :
    Except SiteCheck (Site K M O B) :=
  let part := x.parts.val m.partId
  if m.localMode then
    match x.streamStore (streamKey m) with
    | none => .error .get
    | some stream =>
      let x := { x with streamStore := Function.update x.streamStore (streamKey m) none }
      .ok (x.setPart m.partId (part.joinStream job.obj job.update stream))
  else .ok (x.setPart m.partId (part.joinBin job.obj job.codec job.update m.bin))

/-- The task of an action works on its partition. -/
def runTask [LinearOrder K] (x : Site K M O B) :
    PlanController.Action (List B) → Except SiteCheck (Site K M O B)
  | .execFetch i =>
    match x.pc.fetchExecutor[i]? with
    | some (.join m) => x.runUpdate job m
    | _ => .ok x
  | _ => .ok x

/-- A message of the plan controller's own, or a step of one of its tasks. -/
def act [LinearOrder K] (x : Site K M O B) (a : PlanController.Action (List B)) :
    Except SiteCheck (Site K M O B) := do
  let touched := x.touched job a
  let x := x.before job a
  let x ← x.runTask job a
  let pc ← (PlanController.step (x.spec job n) x.pc a).mapError .controller
  return after { x with pc := pc, entries := x.entries ∪ touched.toFinset } a

/-- `DelayedCombiner::PrepareMsgAndSend`, under `migrate_mu_`. -/
def prepareMsgAndSend (x : Site K M O B) (key : Int × Int) (ids : List Int)
    (stream : List (K × M)) : Except SiteCheck (Handled K M O B) :=
  let node := nodeOf x.partToNode key.1
  if node = n then do
    check .insert (x.streamStore (key.1, ids, key.2) = none)
    return {
      site := { x with
        streamStore := Function.update x.streamStore (key.1, ids, key.2) (some stream) }
      pushed := [.join ⟨key.1, key.2, .ext ids, true, []⟩] }
  else return {
    site := x
    sent := [(node, .join ⟨key.1, key.2, .ext ids, false, job.codec.encodeAll stream⟩)] }

/-! ## The handlers of a migration -/

/-- `kStartMigrate` with `MigratePartitionStartMigrate`, under `migrate_mu_`. -/
def startMigrate (x : Site K M O B) (info : MigrateMeta) (view : List Int) :
    Except SiteCheck (Handled K M O B) := do
  let p := info.partitionId
  let x := { x with partToNode := view }
  let flush := [(info.fromId, .kFlushAll { info with flag := .kFlushAll } false)]
  if info.fromId = n then
    check .startCollection (info.collectionId = job.updateCollectionId)
    check .startUpdate (p ∈ x.pc.updateVersions.keys)
    check .startStop (x.pc.stopUpdateingPartitions p = none)
    return {
      site := { x with pc := { x.pc with
        stopUpdateingPartitions := Function.update x.pc.stopUpdateingPartitions p (some false) } }
      sent := flush }
  else return { site := x, sent := flush }

/-- `serialize_from_stream_store`, for a message in local mode. -/
def serialize (store : Int × List Int × Int → Option (List (K × M))) :
    VersionedJoinMeta (List B) → Except SiteCheck
      ((Int × List Int × Int → Option (List (K × M))) × VersionedJoinMeta (List B))
  | .join m =>
    if m.localMode then
      match store (streamKey m) with
      | none => .error .flushStream
      | some stream => .ok (Function.update store (streamKey m) none,
          .join { m with bin := job.codec.encodeAll stream, localMode := false })
    else .ok (store, .join m)
  | .fetch f =>
    if f.localMode then
      match store (f.partId, [f.upstreamPartId], f.version) with
      | none => .error .flushStream
      | some _ => .ok (Function.update store (f.partId, [f.upstreamPartId], f.version) none,
          .fetch { f with localMode := false })
    else .ok (store, .fetch f)

def serializeAll : List (VersionedJoinMeta (List B)) →
    (Int × List Int × Int → Option (List (K × M))) → Except SiteCheck
      ((Int × List Int × Int → Option (List (K × M))) × List (VersionedJoinMeta (List B)))
  | [], store => .ok (store, [])
  | e :: es, store => do
    let (store, e) ← serialize job store e
    let (store, es) ← serializeAll es store
    return (store, e :: es)

/-- The queues of a partition, by version. -/
def serializePending : List (Int × List (VersionedJoinMeta (List B))) →
    (Int × List Int × Int → Option (List (K × M))) → Except SiteCheck
      ((Int × List Int × Int → Option (List (K × M))) ×
        List (Int × List (VersionedJoinMeta (List B))))
  | [], store => .ok (store, [])
  | (v, es) :: rest, store => do
    let (store, es) ← serializeAll job es store
    let (store, rest) ← serializePending rest store
    return (store, (v, es) :: rest)

/-- `pending_updates_[p]`. -/
def pendingOf (x : Site K M O B) (p : Int) : List (Int × List (VersionedJoinMeta (List B))) :=
  (x.pending.entries.filter fun e => e.1.1 = p).map fun e => (e.1.2, e.2)

/-- The books and the queues of `p` are gone, and its partition. -/
def forget (x : Site K M O B) (p : Int) : Site K M O B :=
  { x with
    pc := { x.pc with
      mapVersions := if Same job then x.pc.mapVersions.erase p 0 else x.pc.mapVersions
      updateVersions := x.pc.updateVersions.erase p 0
      waitingUpdates := Function.update x.pc.waitingUpdates p []
      updateTracker := Function.update x.pc.updateTracker p fun _ => ∅ }
    pending := (x.pendingOf p).foldl (fun q e => q.erase (p, e.1)) x.pending
    parts := ⟨x.parts.keys.filter (· ≠ p), x.parts.val⟩
    entries := x.entries.erase p }

/-- What `p` takes along.  The map version is not set if the plan maps another collection. -/
def books (x : Site K M O B) (p : Int) (pending : List (Int × List (VersionedJoinMeta (List B))))
    (waiting : List (VersionedJoinMeta (List B))) : MigrateData B where
  mapVersion := if Same job then x.pc.mapVersions.val p else -1
  updateVersion := x.pc.updateVersions.val p
  pendingUpdates := pending
  waitingUpdates := waiting
  updateTracker := x.pc.updateTracker p

/-- The site once `p` is gone; a map of it that still runs will not be counted. -/
def leave (x : Site K M O B) (p : Int) (store : Int × List Int × Int → Option (List (K × M))) :
    Site K M O B :=
  let x' := x.forget job p
  { x' with
    pc := { x'.pc with
      stopUpdateingPartitions := Function.update x.pc.stopUpdateingPartitions p
        (if p ∈ x.pc.runningMaps then some true else none) }
    streamStore := store
    flushAllCount := Function.update x.flushAllCount p 0 }

/-- The rest of `MigratePartitionReceiveFlushAll` once all signals are there and nothing runs. -/
def handOver (x : Site K M O B) (info : MigrateMeta) : Except SiteCheck (Handled K M O B) := do
  let p := info.partitionId
  check .flushStop ((x.pc.stopUpdateingPartitions p).isSome)
  let (store, pending) ← serializePending job (x.pendingOf p) x.streamStore
  let (store, waiting) ← serializeAll job (x.pc.waitingUpdates p) store
  check .flushHas (p ∈ x.parts.keys)
  return {
    site := x.leave job p store
    sent := [(info.toId, .kDest { info with flag := .kDest } (x.books job p pending waiting)
      (x.parts.val p).toBin)] }

/-- `MigratePartitionReceiveFlushAll`: while an update runs, the last signal is put back. -/
def receiveFlushAll (x : Site K M O B) (info : MigrateMeta) :
    Except SiteCheck (Handled K M O B) := do
  let p := info.partitionId
  check .flushFrom (info.fromId = n)
  if x.flushAllCount p + 1 = info.numNodes then
    if (x.pc.runningUpdates p).isSome then
      check .flushFlag (info.flag = .kFlushAll)
      return { site := x, pushed := [.kFlushAll info true] }
    else x.handOver job info
  else return { site := { x with
    flushAllCount := Function.update x.flushAllCount p (x.flushAllCount p + 1) } }

/-- The partition comes with a co-allocated one that is loaded from its checkpoint. -/
def AwaitsLoad (x : Site K M O B) (p : Int) : Prop :=
  job.fetchCollectionId ≠ -1 ∧ Same job ∧ job.mapCollectionId ≠ job.fetchCollectionId ∧
    x.loadFinished p = false

instance (x : Site K M O B) (p : Int) : Decidable (x.AwaitsLoad job p) := by
  unfold AwaitsLoad; infer_instance

/-- The books of `p` are entered. -/
def enter (x : Site K M O B) (p : Int) (data : MigrateData B) : Site K M O B :=
  { x with
    pc := { x.pc with
      mapVersions := if Same job then x.pc.mapVersions.set p data.mapVersion else x.pc.mapVersions
      updateVersions := x.pc.updateVersions.set p data.updateVersion
      waitingUpdates := Function.update x.pc.waitingUpdates p data.waitingUpdates
      updateTracker := Function.update x.pc.updateTracker p data.updateTracker }
    pending := data.pendingUpdates.foldl
      (fun q e => e.2.foldl (fun q r => q.push (p, e.1) r) q) x.pending
    entries := insert p x.entries }

/-- A request that came too early. -/
def place (x : Site K M O B) (p : Int) (r : VersionedJoinMeta (List B)) : Site K M O B :=
  if Same job ∧ x.pc.mapVersions.val p ≤ r.version
  then { x with pending := x.pending.push (p, r.version) r }
  else { x with pc := x.pc.pushWaiting p r }

/-- All of them. -/
def placeAll (x : Site K M O B) (p : Int) : Site K M O B :=
  let y := (x.pc.bufferedRequests p).foldl (fun y r => y.place job p r) x
  { y with pc := { y.pc with
    bufferedRequests := Function.update y.pc.bufferedRequests p [] } }

/-- The end of `MigratePartitionDest`: what can run is run, and the scheduler is told. -/
def resume (x : Site K M O B) (p : Int) : Except SiteCheck (Site K M O B) := do
  let c := x.spec job n
  let pc ← (if Same job then PlanController.tryRunSomeMaps c x.pc else .ok x.pc).mapError
    .controller
  let pc ← (PlanController.tryRunWaitingJoins c pc p).mapError .controller
  return { x with pc := { pc with
    toScheduler := pc.toScheduler ++ [⟨.kFinishMigrate, -1, -1, job.planId, p⟩] } }

/-- The site with `p`, its books and its early requests. -/
def settle (x : Site K M O B) (p : Int) (data : MigrateData B) (part : IndexedSeqPartition K O) :
    Site K M O B :=
  let x := { x with loadFinished := Function.update x.loadFinished p false }
  let x := (x.enter job p data).placeAll job p
  { x with parts := x.parts.set p part }

/-- `MigratePartitionDest`. -/
def migrateDest (x : Site K M O B) (info : MigrateMeta) (data : MigrateData B)
    (bin : List (BinItem K O)) : Except SiteCheck (Handled K M O B) := do
  let p := info.partitionId
  check .destTo (info.toId = n)
  if x.AwaitsLoad job p then
    check .destFlag (info.flag = .kDest)
    return { site := x, delayed := [.kDest info data bin] }
  else
    check .destMap (Same job → p ∉ x.pc.mapVersions.keys)
    check .destUpdate (p ∉ x.pc.updateVersions.keys)
    check .destEntries (p ∉ x.entries)
    check .destRequest (∀ r ∈ x.pc.bufferedRequests p, r.partId = p)
    match IndexedSeqPartition.fromBin bin with
    | none => .error .destBin
    | some part =>
      check .destHas (p ∉ x.parts.keys)
      let x ← resume job n (x.settle job p data part) p
      return { site := x }

/-- `Controller::Process` on a message from the network. -/
def handle [LinearOrder K] (x : Site K M O B) : Wire K O B → Except SiteCheck (Handled K M O B)
  | .join m => do
    let x ← x.act job n (.kReceiveJoin m)
    return { site := x }
  | .kStartMigrate info view => x.startMigrate job n info view
  | .kFlushAll info _ => x.receiveFlushAll job n info
  | .kDest info data bin => x.migrateDest job n info data bin

end Model

end Site

end Tangram
