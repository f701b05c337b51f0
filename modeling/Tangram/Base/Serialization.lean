import Tangram.Base.SArrayBinStream
import Tangram.Plan.Dag
import Tangram.Plan.Spec

/-!
# What is sent is what arrives

The structs that are put into streams, with the fields in the order in which their
`operator<<` writes and their `operator>>` reads them: messages of the workers
(`core/worker/plan_controller.hpp`), views of the collections, the graph of the
plans, nodes and mailbox messages, blocks of files, and the specs.

`Built` are the types that can be made of trivially copyable types, strings,
containers, pairs, tuples, streams and these structs.  All of them fit:

    unread s = bytes v ++ rest  →  v >> from s gives v, and rest is unread     (read_write)
-/

namespace Tangram

open StepRun Bytes BinType SArrayBinStream

variable {α β : Type} {t : BinType α}

namespace BinType

/-- `std::string`. -/
abbrev str : BinType (List UInt8) := string .char

/-- The order of `int` keys. -/
def ltInt (x y : Int) : Bool := x < y

def eqInt (x y : Int) : Bool := x == y

/-- The operators fit, only equal values count as equal, and every value can be read into. -/
structure Exact (t : BinType α) : Prop where
  roundTrip : RoundTrip t
  strict : Strict t
  fresh : ∀ v, t.fresh v

theorem Exact.pair {a : BinType α} {b : BinType β} (ha : Exact a) (hb : Exact b) :
    Exact (pair a b) :=
  ⟨pair_roundTrip ha.roundTrip hb.roundTrip, pair_strict ha.strict hb.strict,
    fun v => ⟨ha.fresh v.1, hb.fresh v.2⟩⟩

theorem Exact.vector (h : Exact t) : Exact (vector t) :=
  ⟨vector_roundTrip h.roundTrip, vector_strict h.strict, fun _ => trivial⟩

theorem exact_triv (T : TriviallyCopyable α) : Exact (triv T) :=
  ⟨triv_roundTrip T, triv_strict T, fun _ => trivial⟩

theorem exact_int : Exact int := exact_triv .int

theorem exact_bool : Exact bool := exact_triv .bool

theorem exact_str : Exact str := ⟨string_roundTrip .char, string_strict .char, fun _ => trivial⟩

/-- A struct that consists of its fields. -/
theorem Exact.struct {t : BinType β} {fields old : α → β} {make : β → α} {init : α} (h : Exact t)
    (hmake : ∀ v, make (fields v) = v) : Exact (struct t fields t old make init Eq) :=
  ⟨struct_roundTrip_eq h.roundTrip h.strict (h.fresh _) hmake, fun _ _ h => h,
    fun v => h.fresh (old v)⟩

/-- Keys of type `int`. -/
theorem ltInt_asymm (x y : Int) (h : ltInt x y = true) : ltInt y x = false := by
  unfold ltInt at *
  simp only [decide_eq_true_eq, decide_eq_false_iff_not] at *
  omega

/-- What is decided by equal values is the same for values that count as equal. -/
theorem Strict.respects (h : Strict t) (r : α → α → Bool) (b : Bool) (x y x' y' : α)
    (hx : t.eqv x x') (hy : t.eqv y y') (hr : r x y = b) : r x' y' = b := by
  rw [← h x x' hx, ← h y y' hy]
  exact hr

theorem setInt_roundTrip : RoundTrip (set ltInt int) :=
  set_roundTrip ltInt_asymm (exact_int.strict.respects ltInt true) exact_int.roundTrip

theorem mapInt_exact {v : BinType β} (hv : Exact v) : Exact (map ltInt int v) :=
  ⟨map_roundTrip ltInt_asymm (exact_int.strict.respects ltInt true) exact_int.roundTrip hv.roundTrip,
    map_strict exact_int.strict hv.strict, fun _ => trivial⟩

theorem unorderedMapInt_roundTrip {v : BinType β} (hv : RoundTrip v) :
    RoundTrip (unorderedMap eqInt int v) :=
  unorderedMap_roundTrip (exact_int.strict.respects eqInt false) exact_int.roundTrip hv

end BinType

/-! ## Messages of the workers -/

namespace Wire

structure VersionedShuffleMeta where
  planId : Int
  collectionId : Int
  partId : Int
  upstreamPartId : Int
  version : Int
  isFetch : Bool
  sender : Int
  recver : Int
  localMode : Bool
  extUpstreamPartIds : List Int
deriving DecidableEq, Repr

def VersionedShuffleMeta.binType : BinType VersionedShuffleMeta :=
  struct
    (int.pair <| int.pair <| int.pair <| int.pair <| int.pair <|
      bool.pair <| int.pair <| int.pair <| bool.pair <| vector int)
    (fun m => (m.planId, m.collectionId, m.partId, m.upstreamPartId, m.version,
      m.isFetch, m.sender, m.recver, m.localMode, m.extUpstreamPartIds))
    (int.pair <| int.pair <| int.pair <| int.pair <| int.pair <|
      bool.pair <| int.pair <| int.pair <| bool.pair <| vector int)
    (fun m => (m.planId, m.collectionId, m.partId, m.upstreamPartId, m.version,
      m.isFetch, m.sender, m.recver, m.localMode, m.extUpstreamPartIds))
    (fun (planId, collectionId, partId, upstreamPartId, version,
      isFetch, sender, recver, localMode, extUpstreamPartIds) =>
      { planId, collectionId, partId, upstreamPartId, version,
        isFetch, sender, recver, localMode, extUpstreamPartIds })
    ⟨0, 0, 0, 0, 0, false, -1, -1, false, []⟩ Eq

theorem VersionedShuffleMeta.exact : Exact binType :=
  .struct
    (exact_int.pair <| exact_int.pair <| exact_int.pair <| exact_int.pair <| exact_int.pair <|
      exact_bool.pair <| exact_int.pair <| exact_int.pair <| exact_bool.pair exact_int.vector)
    fun _ => rfl

structure VersionedJoinMeta where
  meta' : VersionedShuffleMeta
  bin : SArrayBinStream
deriving DecidableEq

def VersionedJoinMeta.binType : BinType VersionedJoinMeta :=
  struct
    (VersionedShuffleMeta.binType.pair stream) (fun m => (m.meta', m.bin))
    (VersionedShuffleMeta.binType.pair stream) (fun m => (m.meta', m.bin))
    (fun (meta', bin) => { meta', bin })
    ⟨VersionedShuffleMeta.binType.init, .empty⟩
    fun m n => m.meta' = n.meta' ∧ m.bin.unread = n.bin.unread

theorem VersionedJoinMeta.roundTrip : RoundTrip binType :=
  struct_roundTrip (pair_roundTrip VersionedShuffleMeta.exact.roundTrip stream_roundTrip)
    ⟨VersionedShuffleMeta.exact.fresh _, rfl⟩ fun _ _ h => h

/-- The queues and the tracker of a partition that moves to another node. -/
structure MigrateData where
  mapVersion : Int
  updateVersion : Int
  pendingUpdates : List (Int × List VersionedJoinMeta)
  waitingUpdates : List VersionedJoinMeta
  updateTracker : List (Int × List Int)
deriving DecidableEq

namespace MigrateData

def pendingType : BinType (List (Int × List VersionedJoinMeta)) :=
  unorderedMap eqInt int (deque VersionedJoinMeta.binType)

def waitingType : BinType (List VersionedJoinMeta) := deque VersionedJoinMeta.binType

def trackerType : BinType (List (Int × List Int)) := unorderedMap eqInt int (set ltInt int)

def binType : BinType MigrateData :=
  struct
    (int.pair <| int.pair <| pendingType.pair <| waitingType.pair trackerType)
    (fun d => (d.mapVersion, d.updateVersion, d.pendingUpdates, d.waitingUpdates, d.updateTracker))
    (int.pair <| int.pair <| pendingType.pair <| waitingType.pair trackerType)
    (fun d => (d.mapVersion, d.updateVersion, d.pendingUpdates, d.waitingUpdates, d.updateTracker))
    (fun (mapVersion, updateVersion, pendingUpdates, waitingUpdates, updateTracker) =>
      { mapVersion, updateVersion, pendingUpdates, waitingUpdates, updateTracker })
    ⟨0, 0, [], [], []⟩
    fun d d' => d.mapVersion = d'.mapVersion ∧ d.updateVersion = d'.updateVersion ∧
      pendingType.eqv d.pendingUpdates d'.pendingUpdates ∧
      waitingType.eqv d.waitingUpdates d'.waitingUpdates ∧
      trackerType.eqv d.updateTracker d'.updateTracker

theorem roundTrip : RoundTrip binType := by
  have hwaiting := deque_roundTrip VersionedJoinMeta.roundTrip
  have hpending := unorderedMapInt_roundTrip hwaiting
  have htracker := unorderedMapInt_roundTrip setInt_roundTrip
  refine struct_roundTrip (pair_roundTrip exact_int.roundTrip (pair_roundTrip exact_int.roundTrip
    (pair_roundTrip hpending (pair_roundTrip hwaiting htracker)))) ?_ fun _ _ h => h
  exact ⟨trivial, trivial, trivial, trivial, trivial⟩

end MigrateData

/-! ## Collections, plans, nodes and blocks -/

structure SimplePartToNodeMapper where
  v : List Int
deriving DecidableEq, Repr

def SimplePartToNodeMapper.binType : BinType SimplePartToNodeMapper :=
  struct (vector int) (fun m => m.v) (vector int) (fun m => m.v) (fun v => { v }) ⟨[]⟩ Eq

theorem SimplePartToNodeMapper.exact : Exact binType := .struct exact_int.vector fun _ => rfl

structure CollectionView where
  collectionId : Int
  numPartition : Int
  mapper : SimplePartToNodeMapper
deriving DecidableEq, Repr

def CollectionView.binType : BinType CollectionView :=
  struct
    (int.pair <| int.pair SimplePartToNodeMapper.binType)
    (fun c => (c.collectionId, c.numPartition, c.mapper))
    (int.pair <| int.pair SimplePartToNodeMapper.binType)
    (fun c => (c.collectionId, c.numPartition, c.mapper))
    (fun (collectionId, numPartition, mapper) => { collectionId, numPartition, mapper })
    ⟨0, 0, ⟨[]⟩⟩ Eq

theorem CollectionView.exact : Exact binType :=
  .struct (exact_int.pair <| exact_int.pair SimplePartToNodeMapper.exact) fun _ => rfl

end Wire

def Col.binType : BinType Col :=
  struct
    (int.pair <| (vector int).pair <| vector int) (fun c => (c.id, c.readQueue, c.writeQueue))
    (int.pair <| (vector int).pair <| vector int) (fun c => (c.id, c.readQueue, c.writeQueue))
    (fun (id, readQueue, writeQueue) => { id, readQueue, writeQueue })
    ⟨0, [], []⟩ Eq

theorem Col.exact : Exact binType :=
  .struct (exact_int.pair <| exact_int.vector.pair exact_int.vector) fun _ => rfl

def DagNode.binType : BinType DagNode :=
  struct
    (int.pair <| (vector int).pair <| vector int) (fun n => (n.id, n.out, n.in'))
    (int.pair <| (vector int).pair <| vector int) (fun n => (n.id, n.out, n.in'))
    (fun (id, out, in') => { id, out, in' })
    ⟨0, [], []⟩ Eq

theorem DagNode.exact : Exact binType :=
  .struct (exact_int.pair <| exact_int.vector.pair exact_int.vector) fun _ => rfl

/-- The two maps are written and read as the lists of their entries. -/
def Dag.binType : BinType Dag :=
  struct
    ((map ltInt int DagNode.binType).pair <| map ltInt int Col.binType)
    (fun d => (d.nodes.entries, d.cols.entries))
    ((map ltInt int DagNode.binType).pair <| map ltInt int Col.binType)
    (fun d => (d.nodes.entries, d.cols.entries))
    (fun (nodes, cols) => { nodes := .ofEntries nodes, cols := .ofEntries cols })
    .empty Eq

theorem Dag.exact : Exact binType :=
  .struct ((mapInt_exact DagNode.exact).pair (mapInt_exact Col.exact)) fun d => by
    show Dag.mk (.ofEntries d.nodes.entries) (.ofEntries d.cols.entries) = d
    rw [OrdMap.ofEntries_entries, OrdMap.ofEntries_entries]

namespace Wire

structure Node where
  id : Int
  hostname : List UInt8
  port : Int
  isRecovery : Bool
deriving DecidableEq, Repr

def Node.binType : BinType Node :=
  struct
    (int.pair <| str.pair <| int.pair bool) (fun n => (n.id, n.hostname, n.port, n.isRecovery))
    (int.pair <| str.pair <| int.pair bool) (fun n => (n.id, n.hostname, n.port, n.isRecovery))
    (fun (id, hostname, port, isRecovery) => { id, hostname, port, isRecovery })
    ⟨0, [], 0, false⟩ Eq

theorem Node.exact : Exact binType :=
  .struct (exact_int.pair <| exact_str.pair <| exact_int.pair exact_bool) fun _ => rfl

inductive MailboxFlag
  | kExit | kBarrier | kRegister | kHeartbeat
deriving DecidableEq, Repr

/-- `static_cast<char>(flag)`. -/
def MailboxFlag.toChar : MailboxFlag → UInt8
  | .kExit => 0
  | .kBarrier => 1
  | .kRegister => 2
  | .kHeartbeat => 3

/-- `static_cast<MailboxFlag>(ch)` of the value of a flag. -/
def MailboxFlag.ofChar (ch : UInt8) : MailboxFlag :=
  [kExit, kBarrier, kRegister, kHeartbeat].getD ch.toNat kExit

structure Control where
  flag : MailboxFlag
  node : Node
  isRecovery : Bool
deriving DecidableEq, Repr

def Control.binType : BinType Control :=
  struct
    (char.pair <| Node.binType.pair bool) (fun c => (c.flag.toChar, c.node, c.isRecovery))
    (char.pair <| Node.binType.pair bool) (fun c => (0, c.node, c.isRecovery))
    (fun (ch, node, isRecovery) => { flag := .ofChar ch, node, isRecovery })
    ⟨.kExit, Node.binType.init, false⟩ Eq

theorem Control.exact : Exact binType :=
  .struct ((exact_triv .char).pair <| Node.exact.pair exact_bool) fun c => by
    obtain ⟨flag, node, isRecovery⟩ := c
    cases flag <;> rfl

structure AssignedBlock where
  url : List UInt8
  offset : Nat
  id : Int
  collectionId : Int
  isLoadMeta : Bool
  isWholeFile : Bool
deriving DecidableEq, Repr

def AssignedBlock.binType : BinType AssignedBlock :=
  struct
    (str.pair <| sizeT.pair <| int.pair <| int.pair <| bool.pair bool)
    (fun b => (b.url, b.offset, b.id, b.collectionId, b.isLoadMeta, b.isWholeFile))
    (str.pair <| sizeT.pair <| int.pair <| int.pair <| bool.pair bool)
    (fun b => (b.url, b.offset, b.id, b.collectionId, b.isLoadMeta, b.isWholeFile))
    (fun (url, offset, id, collectionId, isLoadMeta, isWholeFile) =>
      { url, offset, id, collectionId, isLoadMeta, isWholeFile })
    ⟨[], 0, 0, 0, false, false⟩ Eq

theorem AssignedBlock.exact : Exact binType :=
  .struct
    (exact_str.pair <| (exact_triv .sizeT).pair <| exact_int.pair <| exact_int.pair <|
      exact_bool.pair exact_bool)
    fun _ => rfl

structure FinishedBlock where
  blockId : Int
  nodeId : Int
  qid : Int
  hostname : List UInt8
  collectionId : Int
deriving DecidableEq, Repr

def FinishedBlock.binType : BinType FinishedBlock :=
  struct
    (int.pair <| int.pair <| int.pair <| str.pair int)
    (fun b => (b.blockId, b.nodeId, b.qid, b.hostname, b.collectionId))
    (int.pair <| int.pair <| int.pair <| str.pair int)
    (fun b => (b.blockId, b.nodeId, b.qid, b.hostname, b.collectionId))
    (fun (blockId, nodeId, qid, hostname, collectionId) =>
      { blockId, nodeId, qid, hostname, collectionId })
    ⟨0, 0, 0, [], 0⟩ Eq

theorem FinishedBlock.exact : Exact binType :=
  .struct (exact_int.pair <| exact_int.pair <| exact_int.pair <| exact_str.pair exact_int)
    fun _ => rfl

end Wire

/-! ## Specs -/

def MapJoinSpec.binType : BinType (MapJoinSpec (List UInt8)) :=
  struct
    (int.pair <| int.pair <| int.pair <| int.pair <| int.pair <| int.pair <| str.pair str)
    (fun s => (s.mapCollectionId, s.updateCollectionId, s.combineTimeout, s.numIter, s.staleness,
      s.checkpointInterval, s.checkpointPath, s.description))
    (int.pair <| int.pair <| int.pair <| int.pair <| int.pair <| int.pair <| str.pair str)
    (fun s => (s.mapCollectionId, s.updateCollectionId, s.combineTimeout, s.numIter, s.staleness,
      s.checkpointInterval, s.checkpointPath, s.description))
    (fun (mapCollectionId, updateCollectionId, combineTimeout, numIter, staleness,
      checkpointInterval, checkpointPath, description) =>
      { mapCollectionId, updateCollectionId, combineTimeout, numIter, staleness,
        checkpointInterval, checkpointPath, description })
    ⟨0, 0, 0, 1, 0, 0, [], []⟩ Eq

theorem MapJoinSpec.exact : Exact binType :=
  .struct
    (exact_int.pair <| exact_int.pair <| exact_int.pair <| exact_int.pair <| exact_int.pair <|
      exact_int.pair <| exact_str.pair exact_str)
    fun _ => rfl

/-- The fields of the base class first. -/
def MapWithJoinSpec.binType : BinType (MapWithJoinSpec (List UInt8)) :=
  struct
    (MapJoinSpec.binType.pair int) (fun s => (s.toMapJoinSpec, s.withCollectionId))
    (MapJoinSpec.binType.pair int) (fun s => (s.toMapJoinSpec, s.withCollectionId))
    (fun (toMapJoinSpec, withCollectionId) => { toMapJoinSpec, withCollectionId })
    ⟨MapJoinSpec.binType.init, 0⟩ Eq

theorem MapWithJoinSpec.exact : Exact binType :=
  .struct (MapJoinSpec.exact.pair exact_int) fun _ => rfl

def WriteSpec.binType : BinType (WriteSpec (List UInt8)) :=
  struct
    (int.pair str) (fun s => (s.collectionId, s.url))
    (int.pair str) (fun s => (s.collectionId, s.url))
    (fun (collectionId, url) => { collectionId, url })
    ⟨0, []⟩ Eq

theorem WriteSpec.exact : Exact binType := .struct (exact_int.pair exact_str) fun _ => rfl

def LoadSpec.binType : BinType (LoadSpec (List UInt8)) :=
  struct
    (int.pair <| str.pair <| bool.pair bool)
    (fun s => (s.collectionId, s.url, s.isLoadMeta, s.isWholeFile))
    (int.pair <| str.pair <| bool.pair bool)
    (fun s => (s.collectionId, s.url, s.isLoadMeta, s.isWholeFile))
    (fun (collectionId, url, isLoadMeta, isWholeFile) =>
      { collectionId, url, isLoadMeta, isWholeFile })
    ⟨0, [], false, false⟩ Eq

theorem LoadSpec.exact : Exact binType :=
  .struct (exact_int.pair <| exact_str.pair <| exact_bool.pair exact_bool) fun _ => rfl

def CheckpointSpec.binType : BinType (CheckpointSpec (List UInt8)) :=
  struct
    (int.pair str) (fun s => (s.cid, s.url))
    (int.pair str) (fun s => (s.cid, s.url))
    (fun (cid, url) => { cid, url })
    ⟨0, []⟩ Eq

theorem CheckpointSpec.exact : Exact binType := .struct (exact_int.pair exact_str) fun _ => rfl

def LoadCheckpointSpec.binType : BinType (LoadCheckpointSpec (List UInt8)) :=
  struct
    (int.pair str) (fun s => (s.cid, s.url))
    (int.pair str) (fun s => (s.cid, s.url))
    (fun (cid, url) => { cid, url })
    ⟨0, []⟩ Eq

theorem LoadCheckpointSpec.exact : Exact binType := .struct (exact_int.pair exact_str) fun _ => rfl

def DistributeSpec.binType : BinType (DistributeSpec SArrayBinStream) :=
  struct
    (int.pair <| int.pair stream) (fun s => (s.collectionId, s.numPartition, s.data))
    (int.pair <| int.pair stream) (fun s => (s.collectionId, s.numPartition, s.data))
    (fun (collectionId, numPartition, data) => { collectionId, numPartition, data })
    ⟨0, 0, .empty⟩
    fun s s' => s.collectionId = s'.collectionId ∧ s.numPartition = s'.numPartition ∧
      s.data.unread = s'.data.unread

theorem DistributeSpec.roundTrip : RoundTrip binType :=
  struct_roundTrip (pair_roundTrip exact_int.roundTrip (pair_roundTrip exact_int.roundTrip
    stream_roundTrip)) ⟨trivial, trivial, rfl⟩ fun _ _ h => h

/-- An `enum class : char`.  A byte that is no tag is read as `kInit`, which has no class either. -/
def SpecType.repr : TriviallyCopyable SpecType where
  size := 1
  toBytes
    | .kDistribute => [0]
    | .kLoad => [1]
    | .kInit => [2]
    | .kMapJoin => [3]
    | .kMapWithJoin => [4]
    | .kWrite => [5]
    | .kCheckpoint => [6]
    | .kLoadCheckpoint => [7]
  ofBytes b := [kDistribute, kLoad, kInit, kMapJoin, kMapWithJoin, kWrite, kCheckpoint,
    kLoadCheckpoint].getD (b.getD 0 0).toNat kInit
  init := kInit
  valid _ := True
  pos := Nat.one_pos
  length_toBytes f := by cases f <;> rfl
  ofBytes_toBytes f _ := by cases f <;> rfl

namespace SpecWrapper

/-- A wrapper as it is serialised. -/
abbrev Wire := SpecWrapper (List UInt8) SArrayBinStream

/-- `s.spec->ToBin(stream)`. -/
def Spec.toBin (s : SArrayBinStream) :
    Spec (List UInt8) SArrayBinStream → Except BinCheck SArrayBinStream
  | .distribute x => DistributeSpec.binType.out s x
  | .load x => LoadSpec.binType.out s x
  | .mapJoin x => MapJoinSpec.binType.out s x
  | .mapWithJoin x => MapWithJoinSpec.binType.out s x
  | .write x => WriteSpec.binType.out s x
  | .checkpoint x => CheckpointSpec.binType.out s x
  | .loadCheckpoint x => LoadCheckpointSpec.binType.out s x

/-- `s.spec = std::make_shared<..>(); s.spec->FromBin(stream)`. -/
def make (t : BinType α) (f : α → Spec (List UInt8) SArrayBinStream) (s : SArrayBinStream) :
    Except BinCheck (Spec (List UInt8) SArrayBinStream × SArrayBinStream) := do
  let (x, s) ← t.inn s t.init
  return (f x, s)

def fromBin (s : SArrayBinStream) :
    SpecType → Except BinCheck (Spec (List UInt8) SArrayBinStream × SArrayBinStream)
  | .kDistribute => make DistributeSpec.binType .distribute s
  | .kMapJoin => make MapJoinSpec.binType .mapJoin s
  | .kMapWithJoin => make MapWithJoinSpec.binType .mapWithJoin s
  | .kLoad => make LoadSpec.binType .load s
  | .kWrite => make WriteSpec.binType .write s
  | .kCheckpoint => make CheckpointSpec.binType .checkpoint s
  | .kLoadCheckpoint => make LoadCheckpointSpec.binType .loadCheckpoint s
  | .kInit => .error .specType

/-- Type, id and name. -/
def header : BinType (SpecType × Int × List UInt8) := (triv SpecType.repr).pair <| int.pair str

theorem header_exact : Exact header := (exact_triv _).pair <| exact_int.pair exact_str

def Spec.valid : Spec (List UInt8) SArrayBinStream → Prop
  | .distribute x => DistributeSpec.binType.valid x
  | .load x => LoadSpec.binType.valid x
  | .mapJoin x => MapJoinSpec.binType.valid x
  | .mapWithJoin x => MapWithJoinSpec.binType.valid x
  | .write x => WriteSpec.binType.valid x
  | .checkpoint x => CheckpointSpec.binType.valid x
  | .loadCheckpoint x => LoadCheckpointSpec.binType.valid x

def Spec.bytes : Spec (List UInt8) SArrayBinStream → List UInt8
  | .distribute x => DistributeSpec.binType.bytes x
  | .load x => LoadSpec.binType.bytes x
  | .mapJoin x => MapJoinSpec.binType.bytes x
  | .mapWithJoin x => MapWithJoinSpec.binType.bytes x
  | .write x => WriteSpec.binType.bytes x
  | .checkpoint x => CheckpointSpec.binType.bytes x
  | .loadCheckpoint x => LoadCheckpointSpec.binType.bytes x

def Spec.size : Spec (List UInt8) SArrayBinStream → Nat
  | .distribute x => DistributeSpec.binType.size x
  | .load x => LoadSpec.binType.size x
  | .mapJoin x => MapJoinSpec.binType.size x
  | .mapWithJoin x => MapWithJoinSpec.binType.size x
  | .write x => WriteSpec.binType.size x
  | .checkpoint x => CheckpointSpec.binType.size x
  | .loadCheckpoint x => LoadCheckpointSpec.binType.size x

/-- Specs are equal up to what has been read of the data of a `DistributeSpec`. -/
def Spec.eqv : Spec (List UInt8) SArrayBinStream → Spec (List UInt8) SArrayBinStream → Prop
  | .distribute x, .distribute y => DistributeSpec.binType.eqv x y
  | x, y => x = y

/-- A wrapper is a value if its tag is that of its class. -/
def binType : BinType Wire where
  out s w := do
    let s ← header.out s (w.type, w.id, w.name)
    w.spec.toBin s
  inn s old := do
    let ((type, id, name), s) ← header.inn s (old.type, old.id, old.name)
    let (spec, s) ← fromBin s type
    return ({ type, id, name, spec }, s)
  init := ⟨.kInit, 0, [], .write ⟨0, []⟩⟩
  valid w := w.type = w.spec.type ∧ header.valid (w.type, w.id, w.name) ∧ w.spec.valid
  fresh _ := True
  eqv w w' := w.type = w'.type ∧ w.id = w'.id ∧ w.name = w'.name ∧ w.spec.eqv w'.spec
  bytes w := header.bytes (w.type, w.id, w.name) ++ w.spec.bytes
  size w := header.size (w.type, w.id, w.name) + w.spec.size

theorem length_bytes (x : Spec (List UInt8) SArrayBinStream) : x.bytes.length ≤ x.size := by
  cases x with
  | distribute x => exact DistributeSpec.roundTrip.length x
  | load x => exact LoadSpec.exact.roundTrip.length x
  | mapJoin x => exact MapJoinSpec.exact.roundTrip.length x
  | mapWithJoin x => exact MapWithJoinSpec.exact.roundTrip.length x
  | write x => exact WriteSpec.exact.roundTrip.length x
  | checkpoint x => exact CheckpointSpec.exact.roundTrip.length x
  | loadCheckpoint x => exact LoadCheckpointSpec.exact.roundTrip.length x

theorem toBin_ok (s : SArrayBinStream) (x : Spec (List UInt8) SArrayBinStream) (hv : x.valid)
    (hsz : x.size < 2 ^ 31) : x.toBin s = .ok (s.addBin x.bytes) := by
  cases x with
  | distribute x => exact DistributeSpec.roundTrip.write s x hv hsz
  | load x => exact LoadSpec.exact.roundTrip.write s x hv hsz
  | mapJoin x => exact MapJoinSpec.exact.roundTrip.write s x hv hsz
  | mapWithJoin x => exact MapWithJoinSpec.exact.roundTrip.write s x hv hsz
  | write x => exact WriteSpec.exact.roundTrip.write s x hv hsz
  | checkpoint x => exact CheckpointSpec.exact.roundTrip.write s x hv hsz
  | loadCheckpoint x => exact LoadCheckpointSpec.exact.roundTrip.write s x hv hsz

/-- A fresh object of a class is read. -/
theorem make_ok (ht : RoundTrip t) (f : α → Spec (List UInt8) SArrayBinStream) {s : SArrayBinStream}
    {x : α} {rest : List UInt8} (hv : t.valid x) (hsz : t.size x < 2 ^ 31)
    (hs : s.buffer.length < 2 ^ 31) (hu : s.unread = t.bytes x ++ rest) :
    ∃ x', make t f s = .ok (f x', s.skip (t.bytes x).length) ∧ t.eqv x x' := by
  obtain ⟨x', hx, he⟩ := ht.read s t.init x rest hv hsz ht.init hs hu
  refine ⟨x', ?_, he⟩
  unfold make
  rw [hx]
  rfl

theorem make_exact (ht : Exact t) (f : α → Spec (List UInt8) SArrayBinStream) {s : SArrayBinStream}
    {x : α} {rest : List UInt8} (hv : t.valid x) (hsz : t.size x < 2 ^ 31)
    (hs : s.buffer.length < 2 ^ 31) (hu : s.unread = t.bytes x ++ rest) :
    make t f s = .ok (f x, s.skip (t.bytes x).length) := by
  obtain ⟨x', hx, he⟩ := make_ok ht.roundTrip f hv hsz hs hu
  rw [hx, ht.strict x x' he]

theorem fromBin_ok (s : SArrayBinStream) (x : Spec (List UInt8) SArrayBinStream) (rest : List UInt8)
    (hv : x.valid) (hsz : x.size < 2 ^ 31) (hs : s.buffer.length < 2 ^ 31)
    (hu : s.unread = x.bytes ++ rest) :
    ∃ x', fromBin s x.type = .ok (x', s.skip x.bytes.length) ∧ x.eqv x' := by
  cases x with
  | distribute x =>
    obtain ⟨x', hx, he⟩ := make_ok DistributeSpec.roundTrip .distribute hv hsz hs hu
    exact ⟨_, hx, he⟩
  | load x => exact ⟨_, make_exact LoadSpec.exact .load hv hsz hs hu, rfl⟩
  | mapJoin x => exact ⟨_, make_exact MapJoinSpec.exact .mapJoin hv hsz hs hu, rfl⟩
  | mapWithJoin x => exact ⟨_, make_exact MapWithJoinSpec.exact .mapWithJoin hv hsz hs hu, rfl⟩
  | write x => exact ⟨_, make_exact WriteSpec.exact .write hv hsz hs hu, rfl⟩
  | checkpoint x => exact ⟨_, make_exact CheckpointSpec.exact .checkpoint hv hsz hs hu, rfl⟩
  | loadCheckpoint x =>
    exact ⟨_, make_exact LoadCheckpointSpec.exact .loadCheckpoint hv hsz hs hu, rfl⟩

theorem roundTrip : RoundTrip binType where
  init := trivial
  length w := by
    show (header.bytes (w.type, w.id, w.name) ++ w.spec.bytes).length ≤
      header.size (w.type, w.id, w.name) + w.spec.size
    rw [List.length_append]
    exact Nat.add_le_add (header_exact.roundTrip.length _) (length_bytes w.spec)
  write s w hv hsz := by
    have hsz' : header.size (w.type, w.id, w.name) + w.spec.size < 2 ^ 31 := hsz
    show (header.out s (w.type, w.id, w.name) >>= fun s => w.spec.toBin s) = _
    rw [header_exact.roundTrip.write s _ hv.2.1 (by omega)]
    refine (toBin_ok _ w.spec hv.2.2 (by omega)).trans ?_
    rw [addBin_addBin]
    rfl
  read s old w rest hv hsz _ hs hu := by
    have hsz' : header.size (w.type, w.id, w.name) + w.spec.size < 2 ^ 31 := hsz
    have hu' : s.unread = header.bytes (w.type, w.id, w.name) ++ (w.spec.bytes ++ rest) := by
      rw [hu, ← List.append_assoc]
      rfl
    obtain ⟨h, hh, he⟩ := header_exact.roundTrip.read s (old.type, old.id, old.name) _ _ hv.2.1
      (by omega) (header_exact.fresh _) hs hu'
    rw [← header_exact.strict _ _ he] at hh
    obtain ⟨spec, hspec, hse⟩ := fromBin_ok (s.skip (header.bytes (w.type, w.id, w.name)).length)
      w.spec rest hv.2.2 (by omega) hs (unread_skip hu')
    rw [← hv.1] at hspec
    refine ⟨⟨w.type, w.id, w.name, spec⟩, ?_, rfl, rfl, rfl, hse⟩
    show (header.inn s _ >>= _) = _
    rw [hh]
    show (fromBin (s.skip (header.bytes (w.type, w.id, w.name)).length) w.type >>= _) = _
    rw [hspec, skip_skip]
    show _ = Except.ok (_, s.skip (header.bytes (w.type, w.id, w.name) ++ w.spec.bytes).length)
    rw [List.length_append]
    rfl

end SpecWrapper

/-! ## Every type that can be built -/

open Wire in
/-- The types whose operators are the source's. -/
inductive Built : {α : Type} → BinType α → Prop
  | triv {α : Type} (T : TriviallyCopyable α) : Built (.triv T)
  | string {α : Type} (T : TriviallyCopyable α) : Built (.string T)
  | vector {α : Type} {t : BinType α} (h : Built t) : Built (.vector t)
  | deque {α : Type} {t : BinType α} (h : Built t) : Built (.deque t)
  | set {α : Type} {t : BinType α} (h : Built t) (lt : α → α → Bool)
      (hasymm : ∀ x y, lt x y = true → lt y x = false)
      (hlt : ∀ x y x' y', t.eqv x x' → t.eqv y y' → lt x y = true → lt x' y' = true) :
      Built (.set lt t)
  | map {α β : Type} {k : BinType α} {v : BinType β} (hk : Built k) (hv : Built v)
      (lt : α → α → Bool) (hasymm : ∀ x y, lt x y = true → lt y x = false)
      (hlt : ∀ x y x' y', k.eqv x x' → k.eqv y y' → lt x y = true → lt x' y' = true) :
      Built (.map lt k v)
  | unorderedMap {α β : Type} {k : BinType α} {v : BinType β} (hk : Built k) (hv : Built v)
      (eq : α → α → Bool)
      (heq : ∀ x y x' y', k.eqv x x' → k.eqv y y' → eq x y = false → eq x' y' = false) :
      Built (.unorderedMap eq k v)
  | pair {α β : Type} {a : BinType α} {b : BinType β} (ha : Built a) (hb : Built b) :
      Built (.pair a b)
  | tupleNil : Built .tupleNil
  | tupleSnoc {α β : Type} {a : BinType α} {b : BinType β} (ha : Built a) (hb : Built b) :
      Built (.tupleSnoc a b)
  | stream : Built .stream
  | versionedShuffleMeta : Built VersionedShuffleMeta.binType
  | versionedJoinMeta : Built VersionedJoinMeta.binType
  | migrateData : Built MigrateData.binType
  | collectionView : Built CollectionView.binType
  | col : Built Col.binType
  | dagNode : Built DagNode.binType
  | dag : Built Dag.binType
  | node : Built Node.binType
  | control : Built Control.binType
  | assignedBlock : Built AssignedBlock.binType
  | finishedBlock : Built FinishedBlock.binType
  | specWrapper : Built SpecWrapper.binType

theorem Built.roundTrip (h : Built t) : RoundTrip t := by
  induction h with
  | triv T => exact triv_roundTrip T
  | string T => exact string_roundTrip T
  | vector _ ih => exact vector_roundTrip ih
  | deque _ ih => exact deque_roundTrip ih
  | set _ lt hasymm hlt ih => exact set_roundTrip hasymm hlt ih
  | map _ _ lt hasymm hlt ihk ihv => exact map_roundTrip hasymm hlt ihk ihv
  | unorderedMap _ _ eq heq ihk ihv => exact unorderedMap_roundTrip heq ihk ihv
  | pair _ _ iha ihb => exact pair_roundTrip iha ihb
  | tupleNil => exact tupleNil_roundTrip
  | tupleSnoc _ _ iha ihb => exact pair_roundTrip iha ihb
  | stream => exact stream_roundTrip
  | versionedShuffleMeta => exact Wire.VersionedShuffleMeta.exact.roundTrip
  | versionedJoinMeta => exact Wire.VersionedJoinMeta.roundTrip
  | migrateData => exact Wire.MigrateData.roundTrip
  | collectionView => exact Wire.CollectionView.exact.roundTrip
  | col => exact Col.exact.roundTrip
  | dagNode => exact DagNode.exact.roundTrip
  | dag => exact Dag.exact.roundTrip
  | node => exact Wire.Node.exact.roundTrip
  | control => exact Wire.Control.exact.roundTrip
  | assignedBlock => exact Wire.AssignedBlock.exact.roundTrip
  | finishedBlock => exact Wire.FinishedBlock.exact.roundTrip
  | specWrapper => exact SpecWrapper.roundTrip

/-! ## Values that cannot be read into -/

/-- Reading into a value that is not fresh stops. -/
def Sharp (t : BinType α) : Prop :=
  ∀ s old v rest, t.valid v → t.size v < 2 ^ 31 → ¬ t.fresh old → s.buffer.length < 2 ^ 31 →
    s.unread = t.bytes v ++ rest → ∃ e, t.inn s old = .error e

theorem Sharp.of_fresh (h : ∀ v, t.fresh v) : Sharp t :=
  fun _ old _ _ _ _ hf _ _ => absurd (h old) hf

theorem stream_sharp : Sharp stream := by
  intro s old v rest _ hsz hf hs hu
  have hsz' : 8 + v.size < 2 ^ 31 := hsz
  obtain ⟨hlen, -⟩ := read_length (by omega) hs hu
  refine ⟨.nested, ?_⟩
  show (sizeT.inn s 0 >>= _) = _
  rw [hlen]
  show (check _ _ >>= _) = _
  rw [check_eq_error.mpr (show ¬ old.size = 0 ∧ _ from ⟨hf, rfl⟩)]
  rfl

theorem pair_sharp {a : BinType α} {b : BinType β} (hra : RoundTrip a) (ha : Sharp a)
    (hb : Sharp b) : Sharp (pair a b) := by
  rintro s ⟨x₀, y₀⟩ ⟨x, y⟩ rest ⟨hx, hy⟩ hsz hf hs hu
  have hsz' : a.size x + b.size y < 2 ^ 31 := hsz
  have hu' : s.unread = a.bytes x ++ (b.bytes y ++ rest) := hu.trans (List.append_assoc _ _ _)
  by_cases hfx : a.fresh x₀
  · -- the first component is read, the second stops
    obtain ⟨x', hread, -⟩ := hra.read s x₀ x _ hx (by omega) hfx hs hu'
    have hfy : ¬ b.fresh y₀ := fun hfy => hf ⟨hfx, hfy⟩
    obtain ⟨e, he⟩ := hb (s.skip (a.bytes x).length) y₀ y rest hy (by omega) hfy hs
      (unread_skip hu')
    refine ⟨e, ?_⟩
    show (a.inn s x₀ >>= _) = _
    rw [hread]
    show (b.inn _ y₀ >>= _) = _
    rw [he]
    rfl
  · obtain ⟨e, he⟩ := ha s x₀ x _ hx (by omega) hfx hs hu'
    refine ⟨e, ?_⟩
    show (a.inn s x₀ >>= _) = _
    rw [he]
    rfl

theorem struct_sharp {t : BinType β} {fields old : α → β} {make : β → α} {init : α}
    {eqv : α → α → Prop} (ht : Sharp t) : Sharp (struct t fields t old make init eqv) := by
  intro s v₀ v rest hv hsz hf hs hu
  obtain ⟨e, he⟩ := ht s (old v₀) (fields v) rest hv hsz hf hs hu
  refine ⟨e, ?_⟩
  show (t.inn s (old v₀) >>= _) = _
  rw [he]
  rfl

theorem Built.sharp (h : Built t) : Sharp t := by
  induction h with
  | triv T => exact .of_fresh fun _ => trivial
  | string T => exact .of_fresh fun _ => trivial
  | vector _ _ => exact .of_fresh fun _ => trivial
  | deque _ _ => exact .of_fresh fun _ => trivial
  | set _ _ _ _ _ => exact .of_fresh fun _ => trivial
  | map _ _ _ _ _ _ _ => exact .of_fresh fun _ => trivial
  | unorderedMap _ _ _ _ _ _ => exact .of_fresh fun _ => trivial
  | pair ha _ iha ihb => exact pair_sharp ha.roundTrip iha ihb
  | tupleNil => exact .of_fresh fun _ => trivial
  | tupleSnoc ha _ iha ihb => exact pair_sharp ha.roundTrip iha ihb
  | stream => exact stream_sharp
  | versionedShuffleMeta => exact .of_fresh Wire.VersionedShuffleMeta.exact.fresh
  | versionedJoinMeta =>
    have hmeta := Wire.VersionedShuffleMeta.exact
    exact struct_sharp (pair_sharp hmeta.roundTrip (.of_fresh hmeta.fresh) stream_sharp)
  | migrateData => exact .of_fresh fun _ => ⟨trivial, trivial, trivial, trivial, trivial⟩
  | collectionView => exact .of_fresh Wire.CollectionView.exact.fresh
  | col => exact .of_fresh Col.exact.fresh
  | dagNode => exact .of_fresh DagNode.exact.fresh
  | dag => exact .of_fresh Dag.exact.fresh
  | node => exact .of_fresh Wire.Node.exact.fresh
  | control => exact .of_fresh Wire.Control.exact.fresh
  | assignedBlock => exact .of_fresh Wire.AssignedBlock.exact.fresh
  | finishedBlock => exact .of_fresh Wire.FinishedBlock.exact.fresh
  | specWrapper => exact .of_fresh fun _ => trivial

/-! ## Sequences of writes -/

/-- A value with its type. -/
structure Item where
  carrier : Type
  type : BinType carrier
  value : carrier

namespace Item

/-- `stream << v₁ << v₂ << ..`. -/
def outAll (l : List Item) (s : SArrayBinStream) : Except BinCheck SArrayBinStream :=
  l.foldlM (fun s i => i.type.out s i.value) s

/-- Values of the types of the items. -/
def Values : List Item → Type
  | [] => Unit
  | i :: l => i.carrier × Values l

/-- `stream >> w₁ >> w₂ >> ..` into fresh variables of the types of the items. -/
def innAll : (l : List Item) → SArrayBinStream → Except BinCheck (Values l × SArrayBinStream)
  | [], s => .ok ((), s)
  | i :: l, s => do
    let (x, s) ← i.type.inn s i.type.init
    let (xs, s) ← innAll l s
    return ((x, xs), s)

def EqvAll : (l : List Item) → Values l → Prop
  | [], _ => True
  | i :: l, (x, xs) => i.type.eqv i.value x ∧ EqvAll l xs

/-- What is written for the items. -/
def bytesAll (l : List Item) : List UInt8 := l.flatMap fun i => i.type.bytes i.value

/-- A value of a type that can be built, of a size that an `int` can count. -/
structure Ok (i : Item) : Prop where
  built : Built i.type
  valid : i.type.valid i.value
  size : i.type.size i.value < 2 ^ 31

theorem outAll_ok (l : List Item) (hl : ∀ i ∈ l, i.Ok) (s : SArrayBinStream) :
    outAll l s = .ok (s.addBin (bytesAll l)) := by
  induction l generalizing s with
  | nil => exact congrArg Except.ok (addBin_nil s).symm
  | cons i l ih =>
    have hi := hl i List.mem_cons_self
    show (i.type.out s i.value >>= fun s => outAll l s) = _
    rw [hi.built.roundTrip.write s _ hi.valid hi.size, bytesAll, List.flatMap_cons,
      ← addBin_addBin]
    exact ih (fun j hj => hl j (List.mem_cons_of_mem _ hj)) _

theorem innAll_ok (l : List Item) (hl : ∀ i ∈ l, i.Ok) (s : SArrayBinStream) (rest : List UInt8)
    (hs : s.buffer.length < 2 ^ 31) (hu : s.unread = bytesAll l ++ rest) :
    ∃ xs s', innAll l s = .ok (xs, s') ∧ EqvAll l xs ∧ s'.unread = rest := by
  induction l generalizing s with
  | nil => exact ⟨(), s, rfl, trivial, hu⟩
  | cons i l ih =>
    have hi := hl i List.mem_cons_self
    have ht := hi.built.roundTrip
    rw [bytesAll, List.flatMap_cons, List.append_assoc] at hu
    obtain ⟨x, hx, he⟩ := ht.read s i.type.init i.value _ hi.valid hi.size ht.init hs hu
    obtain ⟨xs, s', hxs, hes, hrest⟩ := ih (fun j hj => hl j (List.mem_cons_of_mem _ hj))
      (s.skip (i.type.bytes i.value).length) hs (unread_skip hu)
    refine ⟨(x, xs), s', ?_, ⟨he, hes⟩, hrest⟩
    show (i.type.inn s i.type.init >>= _) = _
    rw [hx]
    show (innAll l (s.skip (i.type.bytes i.value).length) >>= _) = _
    rw [hxs]
    rfl

end Item

/-- **What is written is read back.**  For every type that can be built and every value of it,
`operator<<` appends its bytes, and `operator>>` on a stream whose unread bytes start with them
gives, in a fresh value, what counts as equal, with the rest unread and no check failing; and so
for every sequence of writes and the same sequence of reads. -/
theorem read_write :
    (∀ (α : Type) (t : BinType α), Built t → ∀ v, t.valid v → t.size v < 2 ^ 31 →
      (∀ w, t.out w v = .ok (w.addBin (t.bytes v))) ∧
      ∀ s rest, s.buffer.length < 2 ^ 31 → s.unread = t.bytes v ++ rest →
        ∃ v' s', t.inn s t.init = .ok (v', s') ∧ t.eqv v v' ∧ s'.unread = rest) ∧
    ∀ l : List Item, (∀ i ∈ l, i.Ok) →
      (∀ w, Item.outAll l w = .ok (w.addBin (Item.bytesAll l))) ∧
      ∀ s rest, s.buffer.length < 2 ^ 31 → s.unread = Item.bytesAll l ++ rest →
        ∃ xs s', Item.innAll l s = .ok (xs, s') ∧ Item.EqvAll l xs ∧ s'.unread = rest := by
  constructor
  · intro α t h v hv hsz
    have ht := h.roundTrip
    refine ⟨fun w => ht.write w v hv hsz, fun s rest hs hu => ?_⟩
    obtain ⟨v', hv', he⟩ := ht.read s t.init v rest hv hsz ht.init hs hu
    exact ⟨v', _, hv', he, unread_skip hu⟩
  · intro l hl
    exact ⟨Item.outAll_ok l hl, Item.innAll_ok l hl⟩

/-- A node that registers, and a byte that follows. -/
theorem read_write_register :
    ∃ v' s', Wire.Control.binType.inn
        (.copyFrom (Wire.Control.binType.bytes ⟨.kRegister, ⟨1, [104, 49], 9000, false⟩, true⟩ ++ [7]))
        Wire.Control.binType.init = .ok (v', s') ∧
      ⟨.kRegister, ⟨1, [104, 49], 9000, false⟩, true⟩ = v' ∧ s'.unread = [7] := by
  have hvalid : Wire.Control.binType.valid ⟨.kRegister, ⟨1, [104, 49], 9000, false⟩, true⟩ :=
    ⟨trivial, ⟨⟨by decide, by decide⟩, fun _ _ => trivial, ⟨by decide, by decide⟩, trivial⟩, trivial⟩
  exact (read_write.1 _ _ .control _ hvalid (by decide)).2 _ [7] (by decide) rfl

end Tangram
