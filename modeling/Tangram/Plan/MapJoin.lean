import Tangram.Partition.IndexedSeqPartition
import Tangram.Scheduler.ControlManager
import Tangram.Worker.PlanController

/-!
# A MapUpdate plan

What the user gives (`core/plan/mapupdate.hpp`, `mappartupdate.hpp`,
`mappartwithupdate.hpp`, `plan_spec.hpp`) and where the engine has put the
partitions.  `spec` and `plan` are what the controller of a node and the control
manager see of it.
-/

namespace Tangram

variable {K M O B : Type}

/-- A `MapJoin` plan, or a `MapWithJoin` plan if there is a `fetchCollectionId`. -/
structure MapJoin (K M O B : Type) where
  planId : Int
  nodes : List Int
  /-- `collection_map`: the node of every partition of every collection. -/
  partToNode : Int → List Int
  mapCollectionId : Int
  updateCollectionId : Int
  fetchCollectionId : Int := -1
  numIter : Int
  staleness : Int := 0
  combineTimeout : Int
  checkpointInterval : Int := 0
  checkpointPath : String := ""
  numLocalThreads : Nat := 1
  mapper : K → Int
  /-- What the map of partition `u` emits at version `v`.  It may depend on all that the map
  has read, so it is any list. -/
  map : Int → Int → List (K × M)
  combine : Option (M → M → M)
  /-- `std::sort` by the keys. -/
  sort : List (K × M) → List (K × M)
  obj : ObjType K O
  update : O → M → O
  keyCodec : Codec B K
  msgCodec : Codec B M
  /-- The update collection as the plan finds it. -/
  initial : Int → IndexedSeqPartition K O
  nodes_nodup : nodes.Nodup
  node_mem : ∀ cid, ∀ n ∈ partToNode cid, n ∈ nodes
  update_ne_nil : partToNode updateCollectionId ≠ []
  mapper_mem : ∀ k, mapper k ∈ partsOf (partToNode updateCollectionId)
  sort_perm : ∀ l, (sort l).Perm l
  path_ne : checkpointInterval ≠ 0 → checkpointPath ≠ ""

namespace MapJoin

variable (job : MapJoin K M O B)

def mapParts : List Int := partsOf (job.partToNode job.mapCollectionId)

def updateParts : List Int := partsOf (job.partToNode job.updateCollectionId)

/-- `collection_map->Lookup`. -/
def lookup (cid p : Int) : Int := nodeOf (job.partToNode cid) p

/-- The node of an update partition. -/
abbrev owner (p : Int) : Int := job.lookup job.updateCollectionId p

/-- The node of a map partition. -/
abbrev home (u : Int) : Int := job.lookup job.mapCollectionId u

def codec : Codec B (K × M) := job.keyCodec.prod job.msgCodec

/-- What `Setup` reads on node `n`. -/
def spec (n : Int) : Spec where
  planId := job.planId
  nodeId := n
  mapCollectionId := job.mapCollectionId
  updateCollectionId := job.updateCollectionId
  fetchCollectionId := job.fetchCollectionId
  numUpstreamPart := (job.partToNode job.mapCollectionId).length
  staleness := job.staleness
  expectedNumIter := job.numIter
  checkpointInterval := job.checkpointInterval
  partitions := fun cid => owned (job.partToNode cid) n

def plan : Plan where
  planId := job.planId
  nodes := job.nodes
  mapPartToNode := job.partToNode job.mapCollectionId
  updatePartToNode := job.partToNode job.updateCollectionId
  updateCollectionId := job.updateCollectionId
  numIter := job.numIter
  checkpointInterval := job.checkpointInterval
  checkpointPath := job.checkpointPath

variable {job}

theorem mem_mapParts {u : Int} :
    u ∈ job.mapParts ↔ 0 ≤ u ∧ u < (job.partToNode job.mapCollectionId).length := mem_partsOf

/-- The local update partitions of a node are those it owns. -/
theorem mem_spec_update {n p : Int} :
    p ∈ (job.spec n).partitions (job.spec n).updateCollectionId ↔
      p ∈ job.updateParts ∧ job.owner p = n := mem_owned

theorem mem_spec_map {n u : Int} :
    u ∈ (job.spec n).partitions (job.spec n).mapCollectionId ↔
      u ∈ job.mapParts ∧ job.home u = n := mem_owned

end MapJoin

end Tangram
