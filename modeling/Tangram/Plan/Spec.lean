import Tangram.Scheduler.CollectionStatus

/-!
# Plan specs

The `Spec` classes and `SpecWrapper` (`core/plan/spec_wrapper.hpp`).  They are
generic in the strings: bytes where a spec is serialised, `String` where the
scheduler makes urls of them; and in the data that a `DistributeSpec` carries.
-/

namespace Tangram

variable {σ δ : Type}

structure MapJoinSpec (σ : Type) where
  mapCollectionId : Int
  updateCollectionId : Int
  combineTimeout : Int
  numIter : Int
  staleness : Int
  checkpointInterval : Int
  checkpointPath : σ
  description : σ
deriving DecidableEq, Repr

structure MapWithJoinSpec (σ : Type) extends MapJoinSpec σ where
  withCollectionId : Int
deriving DecidableEq, Repr

structure WriteSpec (σ : Type) where
  collectionId : Int
  url : σ
deriving DecidableEq, Repr

structure LoadSpec (σ : Type) where
  collectionId : Int
  url : σ
  isLoadMeta : Bool
  isWholeFile : Bool
deriving DecidableEq, Repr

structure CheckpointSpec (σ : Type) where
  cid : Int
  url : σ
deriving DecidableEq, Repr

structure LoadCheckpointSpec (σ : Type) where
  cid : Int
  url : σ
deriving DecidableEq, Repr

structure DistributeSpec (δ : Type) where
  collectionId : Int
  numPartition : Int
  data : δ
deriving DecidableEq, Repr

/-- `SpecWrapper::Type`. -/
inductive SpecType
  | kDistribute | kLoad | kInit | kMapJoin | kMapWithJoin | kWrite | kCheckpoint | kLoadCheckpoint
deriving DecidableEq, Repr

/-- What a `std::shared_ptr<Spec>` points to. -/
inductive SpecWrapper.Spec (σ δ : Type)
  | distribute (s : DistributeSpec δ)
  | load (s : LoadSpec σ)
  | mapJoin (s : MapJoinSpec σ)
  | mapWithJoin (s : MapWithJoinSpec σ)
  | write (s : WriteSpec σ)
  | checkpoint (s : CheckpointSpec σ)
  | loadCheckpoint (s : LoadCheckpointSpec σ)
deriving DecidableEq, Repr

structure SpecWrapper (σ δ : Type) where
  type : SpecType
  id : Int
  name : σ
  spec : SpecWrapper.Spec σ δ
deriving DecidableEq, Repr

/-! ## What a plan reads and writes -/

def MapJoinSpec.getReadWrite (s : MapJoinSpec σ) : ReadWriteVector :=
  if s.mapCollectionId = s.updateCollectionId then ⟨[], [s.mapCollectionId]⟩
  else ⟨[s.mapCollectionId], [s.updateCollectionId]⟩

def MapWithJoinSpec.getReadWrite (s : MapWithJoinSpec σ) : ReadWriteVector :=
  ⟨(if s.mapCollectionId ≠ s.updateCollectionId then [s.mapCollectionId] else []) ++
      (if s.withCollectionId ≠ s.updateCollectionId then [s.withCollectionId] else []),
    [s.updateCollectionId]⟩

namespace SpecWrapper

def Spec.getReadWrite : Spec σ δ → ReadWriteVector
  | .distribute s => ⟨[], [s.collectionId]⟩
  | .load s => ⟨[], [s.collectionId]⟩
  | .mapJoin s => s.getReadWrite
  | .mapWithJoin s => s.getReadWrite
  | .write s => ⟨[], [s.collectionId]⟩
  | .checkpoint s => ⟨[s.cid], []⟩
  | .loadCheckpoint s => ⟨[], [s.cid]⟩

/-- The tag of the class. -/
def Spec.type : Spec σ δ → SpecType
  | .distribute _ => .kDistribute
  | .load _ => .kLoad
  | .mapJoin _ => .kMapJoin
  | .mapWithJoin _ => .kMapWithJoin
  | .write _ => .kWrite
  | .checkpoint _ => .kCheckpoint
  | .loadCheckpoint _ => .kLoadCheckpoint

def getReadWrite (w : SpecWrapper σ δ) : ReadWriteVector := w.spec.getReadWrite

/-- `GetMapJoinSpec`; both map-join classes are one. -/
def getMapJoinSpec? (w : SpecWrapper σ δ) : Option (MapJoinSpec σ) :=
  match w.spec with
  | .mapJoin s => some s
  | .mapWithJoin s => some s.toMapJoinSpec
  | _ => none

end SpecWrapper

end Tangram
