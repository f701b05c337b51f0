import Mathlib

/-!
# Messages of the control plane

The records that controllers, the scheduler and the fetchers exchange
(`core/scheduler/control.hpp`, the metas of `core/worker/plan_controller.hpp`
and the queue ids of `core/queue_node_map.hpp`).  Ids and versions are the
source's `int`s.
-/

namespace Tangram

/-! ## Queue ids -/

/-- The maximum number of queues in each node. -/
def kMagic : Int := 8

def getNodeId (qid : Int) : Int := qid / kMagic

def getFetcherQid (nid : Int) : Int := nid * kMagic + 2

def getControllerActorQid (nid : Int) : Int := nid * kMagic + 3

/-! ## Reports to the scheduler -/

inductive ControllerMsgFlag
  | kSetup | kMap | kJoin | kFinish | kFinishMigrate | kFinishCP
deriving DecidableEq, Repr

structure ControllerMsg where
  flag : ControllerMsgFlag
  version : Int
  nodeId : Int
  planId : Int
  partId : Int
deriving DecidableEq, Repr

/-! ## Join messages and fetch requests -/

/-- The upstream partitions a join message comes from: `upstream_part_id`, or, where that
is `-1`, the list `ext_upstream_part_ids`. -/
inductive Upstream
  | one (upstreamPartId : Int)
  | ext (extUpstreamPartIds : List Int)
deriving DecidableEq, Repr

/-- What `upstream_part_id` holds. -/
def Upstream.partId : Upstream → Int
  | .one u => u
  | .ext _ => -1

/-- The ids that `FinishJoin` is told about. -/
def Upstream.ids : Upstream → List Int
  | .one u => [u]
  | .ext us => us

/-- A `VersionedJoinMeta` that carries map output (`is_fetch` unset); `bin` is its payload. -/
structure JoinMeta (β : Type) where
  partId : Int
  version : Int
  upstream : Upstream
  localMode : Bool
  bin : β
deriving DecidableEq, Repr

def JoinMeta.ids {β : Type} (m : JoinMeta β) : List Int := m.upstream.ids

/-- The message is for version `v` of partition `p`. -/
def JoinMeta.At {β : Type} (p v : Int) (m : JoinMeta β) : Prop :=
  m.partId = p ∧ m.version = v

instance {β : Type} (p v : Int) (m : JoinMeta β) : Decidable (m.At p v) := by
  unfold JoinMeta.At; infer_instance

/-- The output of upstream partition `u` for version `v` of partition `p` is in the message. -/
def JoinMeta.Covers {β : Type} (p v u : Int) (m : JoinMeta β) : Prop :=
  m.At p v ∧ u ∈ m.ids

instance {β : Type} (p v u : Int) (m : JoinMeta β) :
    Decidable (m.Covers p v u) := by
  unfold JoinMeta.Covers; infer_instance

/-- A `VersionedJoinMeta` with `is_fetch` set; version `-1` asks for objects, any other
version for the partition. -/
structure FetchReq where
  planId : Int
  collectionId : Int
  partId : Int
  upstreamPartId : Int
  version : Int
  localMode : Bool
  sender : Int
  recver : Int
deriving DecidableEq, Repr

/-- What waits for a partition: map output to apply, or a fetch to answer. -/
inductive VersionedJoinMeta (β : Type)
  | join (m : JoinMeta β)
  | fetch (f : FetchReq)
deriving DecidableEq, Repr

def VersionedJoinMeta.partId {β : Type} : VersionedJoinMeta β → Int
  | .join m => m.partId
  | .fetch f => f.partId

/-- The map output, if it is one. -/
def VersionedJoinMeta.join? {β : Type} : VersionedJoinMeta β → Option (JoinMeta β)
  | .join m => some m
  | .fetch _ => none

inductive FetcherFlag
  | kFetchObjsReply | kFetchPartReplyLocal | kFetchPartReplyRemote
deriving DecidableEq, Repr

/-- A controller's answer to a fetch.  `requested` is the version that was asked for; the
message itself only carries `version`, the version that is handed out. -/
structure FetchReply where
  flag : FetcherFlag
  recver : Int
  upstreamPartId : Int
  collectionId : Int
  partId : Int
  version : Int
  requested : Int
deriving DecidableEq, Repr

end Tangram
