import Tangram.Worker.Migration

/-!
# Migrations in a cluster

All nodes of a plan while update partitions migrate between them.  The network keeps the
order of the messages from one node to another; what has arrived at a node is processed
in the order of its work queue.  The nodes' delayed combiners may send any batch at any
time, as long as no output is sent twice; maps, updates and checkpoints go on as their
controllers let them.

The scheduler starts a migration with a `kStartMigrate` to every node, which carries the
new view of the update collection.
-/

namespace Tangram

open StepRun

variable {K M O B : Type}

/-- `src` is `none` for the scheduler. -/
structure Packet (K O B : Type) where
  src : Option Int
  dst : Int
  wire : Wire K O B

/-- What a partition takes along. -/
structure Luggage (K O : Type) where
  content : IndexedSeqPartition K O
  updateVersion : Int
  updateTracker : Int → Finset Int

/-- The last fields are a record of the run: the batches that were sent, how many of the signals
of a migration the old node has processed, and what it has handed over. -/
structure Migrating (K M O B : Type) where
  site : Int → Site K M O B
  net : List (Packet K O B)
  /-- The work queues of all nodes. -/
  queue : List (Packet K O B)
  /-- What a thread will push to the work queue of its node. -/
  delayed : List (Packet K O B)
  /-- The scheduler's view of the update collection. -/
  partToNode : List Int
  /-- The migrations that have not ended, by partition. -/
  moving : Int → Option MigrateMeta
  sent : List ((Int × Int) × List Int)
  signals : Int → Nat
  handed : Int → Option (Luggage K O)

inductive MigrationEvent (K M B : Type)
  /-- The scheduler moves `p`. -/
  | migrate (p toId : Int)
  | arrive (i : Nat)
  | handle (i : Nat)
  /-- A delayed message is pushed. -/
  | push (i : Nat)
  /-- A task of the combiner of `n`, or its `AddStream`, sends a batch. -/
  | send (n : Int) (key : Int × Int) (ids : List Int) (stream : List (K × M))
  | act (n : Int) (a : PlanController.Action (List B))
  | finishLoadWith (n p : Int)

namespace Migrating

section Model

variable (job : MapJoin K M O B)

def init : Migrating K M O B where
  site := Site.init job
  net := []
  queue := []
  delayed := []
  partToNode := job.partToNode job.updateCollectionId
  moving := fun _ => none
  sent := []
  signals := fun _ => 0
  handed := fun _ => none

def set (s : Migrating K M O B) (n : Int) (x : Site K M O B) : Migrating K M O B :=
  { s with site := Function.update s.site n x }

/-- What a handler at `n` leaves and sends. -/
def put (s : Migrating K M O B) (n : Int) (h : Handled K M O B) : Migrating K M O B :=
  { s.set n h.site with
    net := s.net ++ h.sent.map fun x => ⟨some n, x.1, x.2⟩
    queue := s.queue ++ h.pushed.map fun w => ⟨some n, n, w⟩
    delayed := s.delayed ++ h.delayed.map fun w => ⟨some n, n, w⟩ }

def info (s : Migrating K M O B) (p toId : Int) : MigrateMeta :=
  ⟨.kStartMigrate, job.planId, job.updateCollectionId, p, nodeOf s.partToNode p, toId,
    job.nodes.length⟩

def migrate (s : Migrating K M O B) (p toId : Int) : Migrating K M O B :=
  let info := s.info job p toId
  let view := (⟨info.fromId, toId, p⟩ : Migration).apply s.partToNode
  { s with
    net := s.net ++ job.nodes.map fun n => ⟨none, n, .kStartMigrate info view⟩
    partToNode := view
    moving := Function.update s.moving p (some info)
    signals := Function.update s.signals p 0 }

/-- What the processing of a message adds to the record. -/
def note (s : Migrating K M O B) (n : Int) (h : Handled K M O B) :
    Wire K O B → Migrating K M O B
  | .kFlushAll info again =>
    let p := info.partitionId
    { s with
      signals := if again then s.signals else Function.update s.signals p (s.signals p + 1)
      handed := if h.sent.isEmpty then s.handed else Function.update s.handed p (some
        ⟨(s.site n).parts.val p, (s.site n).pc.updateVersions.val p,
          (s.site n).pc.updateTracker p⟩) }
  | .kDest info _ _ =>
    { s with moving := if h.delayed.isEmpty then Function.update s.moving info.partitionId none
        else s.moving }
  | _ => s

def step [LinearOrder K] (s : Migrating K M O B) :
    MigrationEvent K M B → Except SiteCheck (Migrating K M O B)
  | .migrate p toId => .ok (s.migrate job p toId)
  | .arrive i =>
    match s.net[i]? with
    | none => .ok s
    | some k => .ok { s with net := s.net.eraseIdx i, queue := s.queue ++ [k] }
  | .handle i =>
    match s.queue[i]? with
    | none => .ok s
    | some k => do
      let h ← (s.site k.dst).handle job k.dst k.wire
      let s := s.note k.dst h k.wire
      return put { s with queue := s.queue.eraseIdx i } k.dst h
  | .push i =>
    match s.delayed[i]? with
    | none => .ok s
    | some k => .ok { s with delayed := s.delayed.eraseIdx i, queue := s.queue ++ [k] }
  | .send n key ids stream => do
    let h ← (s.site n).prepareMsgAndSend job n key ids stream
    return put { s with sent := s.sent ++ [(key, ids)] } n h
  | .act n a => do
    let x ← (s.site n).act job n a
    return s.set n x
  | .finishLoadWith n p =>
    .ok (s.set n { s.site n with
      loadFinished := Function.update (s.site n).loadFinished p true })

/-- The first of the packets from one node to another. -/
def FirstOf (l : List (Packet K O B)) (i : Nat) : Prop :=
  match l[i]? with
  | none => True
  | some k => ∀ k' ∈ l.take i, k'.src = k.src → k'.dst ≠ k.dst

/-- The first of the packets for a node. -/
def HeadOf (l : List (Packet K O B)) (i : Nat) : Prop :=
  match l[i]? with
  | none => True
  | some k => ∀ k' ∈ l.take i, k'.dst ≠ k.dst

instance (l : List (Packet K O B)) (i : Nat) : Decidable (FirstOf l i) := by
  unfold FirstOf; split <;> infer_instance

instance (l : List (Packet K O B)) (i : Nat) : Decidable (HeadOf l i) := by
  unfold HeadOf; split <;> infer_instance

/-- A step of a controller that is not the arrival of a join message; a fetch request comes only
in a `MapWithJoin` plan. -/
def OwnAction : PlanController.Action (List B) → Prop
  | .kReceiveJoin _ => False
  | .kFetchRequest _ => job.fetchCollectionId ≠ -1
  | _ => True

instance (a : PlanController.Action (List B)) : Decidable (OwnAction job a) := by
  cases a <;> unfold OwnAction <;> infer_instance

/-- What can happen: a partition has one migration at a time, messages keep their order, and no
output is sent twice. -/
def Enabled (s : Migrating K M O B) : MigrationEvent K M B → Prop
  | .migrate p toId => p ∈ job.updateParts ∧ s.moving p = none ∧ toId ∈ job.nodes ∧
      toId ≠ nodeOf s.partToNode p
  | .arrive i => FirstOf s.net i
  | .handle i => HeadOf s.queue i
  | .push _ => True
  | .send n key ids _ => n ∈ job.nodes ∧ key.1 ∈ job.updateParts ∧ ids ≠ [] ∧ ids.Nodup ∧
      ∀ b ∈ s.sent, b.1 = key → ∀ u ∈ ids, u ∉ b.2
  | .act n a => n ∈ job.nodes ∧ OwnAction job a
  | .finishLoadWith _ _ => True

instance (s : Migrating K M O B) (e : MigrationEvent K M B) : Decidable (s.Enabled job e) := by
  cases e <;> unfold Enabled <;> infer_instance

end Model

end Migrating

end Tangram
