import Tangram.Lib.Run

/-!
# The fetcher

What a `Fetcher` (`core/cache/fetcher.cpp`) does for one partition of one
collection: every table of the fetcher is keyed by the two ids, and no handler
reads another key.  The functions here are the sections that hold the lock
`m_`; `step` interleaves them for any number of map threads in `FetchPart` and
`FinishPart` with the fetcher's actor, whose work queue holds
`kFetchPartRequest`s, and with the controller's replies.

`FetchObjs`, which shares nothing with these but the lock, is left out.
-/

namespace Tangram

open StepRun

/-! ## State -/

structure FetchMeta where
  planId : Int
  upstreamPartId : Int
  collectionId : Int
  partitionId : Int
  version : Int
  localMode : Bool
deriving DecidableEq, Repr

/-- The `CHECK`s of `FinishPart`, `FetchPartReplyLocal` and `TryFetchNextVersion`. -/
inductive FetcherCheck
  | finishPart
  | fetchPartReplyLocal
  | tryFetchNextVersion
deriving DecidableEq, Repr

/-- The entries of one `(collection_id, partition_id)`; `π` is the type of partitions. -/
structure Fetcher (π : Type) where
  partitionVersions : Option Int
  /-- `none` is the null pointer -/
  partitionCache : Option π
  requestingVersions : List Int
  localAccessCount : Option Int
  /-- The `kFetchRequest`s that the controller has not answered yet. -/
  toController : List FetchMeta
  /-- The `kFinishFetch`es sent to the controller. -/
  finished : List FetchMeta

namespace Fetcher

variable {π : Type}

/-! ## Sections under the lock -/

def isVersionSatisfied (s : Fetcher π) (m : FetchMeta) : Bool :=
  match s.partitionVersions with
  | some v => decide (m.version ≤ v)
  | none => false

def tryAccessLocal (s : Fetcher π) : Fetcher π :=
  { s with localAccessCount := s.localAccessCount.map (· + 1) }

def sendFetchPart (s : Fetcher π) (m : FetchMeta) : Fetcher π :=
  { s with toController := s.toController ++ [m] }

def sendFinishPart (s : Fetcher π) (m : FetchMeta) : Fetcher π :=
  { s with finished := s.finished ++ [m] }

/-- The requests that version `v` does not answer. -/
def above (q : List Int) (v : Int) : List Int := q.filter fun w => ¬ w ≤ v

def tryFetchNextVersion (s : Fetcher π) (m : FetchMeta) (version : Int) :
    Except FetcherCheck (Fetcher π) :=
  let s := { s with requestingVersions := above s.requestingVersions version }
  match s.requestingVersions with
  | [] => .ok s
  | next :: _ => do
    check .tryFetchNextVersion (m.version < next)
    return s.sendFetchPart { m with version := next }

def finishPart (s : Fetcher π) (m : FetchMeta) : Except FetcherCheck (Fetcher π) :=
  match s.localAccessCount with
  | none => .ok s
  | some n => do
    check .finishPart (0 < n)
    let s := { s with localAccessCount := some (n - 1) }
    if n - 1 = 0 then
      let s := s.sendFinishPart m
      let version := s.partitionVersions.getD 0
      let s := { s with
        partitionVersions := none
        partitionCache := none }
      let s ← s.tryFetchNextVersion m version
      return { s with localAccessCount := none }
    else return s

def fetchPartRequest (s : Fetcher π) (m : FetchMeta) : Fetcher π :=
  if s.isVersionSatisfied m then s
  else
    match s.requestingVersions.getLast? with
    | none => { s with requestingVersions := [m.version] }.sendFetchPart m
    | some back =>
      if back < m.version then
        { s with requestingVersions := s.requestingVersions ++ [m.version] }
      else s

/-- `m` is the meta of the reply, with the version that the controller hands out. -/
def fetchPartReplyLocal (s : Fetcher π) (m : FetchMeta) (p : π) :
    Except FetcherCheck (Fetcher π) := do
  let s := { s with
    partitionVersions := some m.version
    partitionCache := some p }
  check .fetchPartReplyLocal (s.localAccessCount = none)
  return { s with localAccessCount := some 0 }

def fetchPartReplyRemote (s : Fetcher π) (m : FetchMeta) (p : π) :
    Except FetcherCheck (Fetcher π) :=
  tryFetchNextVersion { s with
    partitionVersions := some m.version
    partitionCache := some p } m m.version

end Fetcher

/-! ## Threads -/

/-- Where a map thread is. -/
inductive FetchThread (π : Type)
  | idle
  /-- In `FetchPart`, before its message is pushed to the work queue. -/
  | requested (m : FetchMeta)
  /-- In `cv_.wait`. -/
  | waiting (m : FetchMeta)
  /-- After the wait, before the section that takes the reference. -/
  | woken (m : FetchMeta)
  /-- `FetchPart` has returned `p`; `FinishPart` is to come. -/
  | accessing (m : FetchMeta) (p : Option π)

structure FetchSystem (π : Type) where
  fetcher : Fetcher π
  threads : List (FetchThread π)
  /-- The `kFetchPartRequest`s in the work queue, each with the thread that pushed it. -/
  workQueue : List (Nat × FetchMeta)

inductive FetchAction (π : Type)
  /-- The first section of `FetchPart`. -/
  | fetchPart (t : Nat) (m : FetchMeta)
  | push (t : Nat)
  | wake (t : Nat)
  /-- The last section of `FetchPart`. -/
  | access (t : Nat)
  | finishPart (t : Nat)
  | fetchPartRequest (i : Nat)
  /-- The controller's reply to its `i`-th open request is processed. -/
  | reply (i : Nat) (version : Int) (p : π)

namespace FetchSystem

variable {π : Type}

/-- `n` threads and an empty cache. -/
def init (π : Type) (n : Nat) : FetchSystem π where
  fetcher := ⟨none, none, [], none, [], []⟩
  threads := List.replicate n .idle
  workQueue := []

/-- One section.  `isLocal` says that the partition is on the fetcher's node, so that its
controller grants access to it instead of sending a copy. -/
def step (isLocal : Bool) (s : FetchSystem π) :
    FetchAction π → Except FetcherCheck (FetchSystem π)
  | .fetchPart t m =>
    match s.threads[t]? with
    | some .idle =>
      if s.fetcher.isVersionSatisfied m then
        .ok { s with
          fetcher := s.fetcher.tryAccessLocal
          threads := s.threads.set t (.accessing m s.fetcher.partitionCache) }
      else .ok { s with threads := s.threads.set t (.requested m) }
    | _ => .ok s
  | .push t =>
    match s.threads[t]? with
    | some (.requested m) =>
      .ok { s with
        threads := s.threads.set t (.waiting m)
        workQueue := s.workQueue ++ [(t, m)] }
    | _ => .ok s
  | .wake t =>
    match s.threads[t]? with
    | some (.waiting m) =>
      if s.fetcher.isVersionSatisfied m then .ok { s with threads := s.threads.set t (.woken m) }
      else .ok s
    | _ => .ok s
  | .access t =>
    match s.threads[t]? with
    | some (.woken m) =>
      .ok { s with
        fetcher := s.fetcher.tryAccessLocal
        threads := s.threads.set t (.accessing m s.fetcher.partitionCache) }
    | _ => .ok s
  | .finishPart t =>
    match s.threads[t]? with
    | some (.accessing m _) => do
      let f ← s.fetcher.finishPart m
      return { s with
        fetcher := f
        threads := s.threads.set t .idle }
    | _ => .ok s
  | .fetchPartRequest i =>
    match s.workQueue[i]? with
    | some (_, m) =>
      .ok { s with
        fetcher := s.fetcher.fetchPartRequest m
        workQueue := s.workQueue.eraseIdx i }
    | none => .ok s
  | .reply i version p =>
    match s.fetcher.toController[i]? with
    | some m => do
      let f := { s.fetcher with toController := s.fetcher.toController.eraseIdx i }
      let f ← if isLocal then f.fetchPartReplyLocal { m with version } p
        else f.fetchPartReplyRemote { m with version } p
      return { s with fetcher := f }
    | none => .ok s

end FetchSystem

end Tangram
