import Tangram.Cache.Access
import Tangram.Cluster.ControlPlane

/-!
# The cluster

The control plane together with what the tasks work on: the partitions of the
update collection on every node, and the fetchers through which map tasks read
partitions (`core/cache/typed_cache.hpp`, `core/cache/fetcher.cpp`).  Requests and
releases of the fetchers are what the control plane left to its environment, so a
run of the cluster is a run of the control plane (`Reachable.plane`).

The content of a fetched partition is left out, as are the replies to `FetchObjs`.
-/

namespace Tangram

open StepRun

variable {K M O B : Type}

structure Cluster (K M O B : Type) extends ControlPlane K M B where
  /-- `partition_manager` of every node, for the update collection. -/
  partitions : Int → Int → IndexedSeqPartition K O
  /-- The fetcher of every node, for each partition of the fetched collection. -/
  fetchers : Int → Int → FetchSystem Unit
  /-- The replies of a node's controller that their fetcher has processed. -/
  answered : Int → Finset Nat
  /-- How many `kFinishFetch`es of a partition have reached the controller of the node. -/
  released : Int → Int → Nat

inductive ClusterCheck
  | plane (e : PlaneCheck)
  | fetcher (e : FetcherCheck)
deriving DecidableEq, Repr

inductive ClusterEvent
  | plane (e : PlaneEvent)
  /-- Map task `i` calls `GetPartition(p)` on thread `t`. -/
  | getPartition (p : Int) (t i : Nat)
  /-- The fetcher or a thread in it goes on. -/
  | fetcher (p : Int) (a : FetchAction Unit)
  /-- The `i`-th `kFetchRequest` for `p` arrives at the controller of `p`. -/
  | requestPart (p : Int) (i : Nat)
  /-- A map calls `TypedCache::Get` for objects of `p`; the request arrives. -/
  | requestObjs (p upstreamPartId : Int)
  /-- The fetcher processes reply `j` of the controller of `p`.  The source leaves
  `local_mode` of that message uninitialised. -/
  | reply (p : Int) (j : Nat) (localMode : Bool)
  /-- A `kFinishFetch` of the fetcher releases grant `i`. -/
  | finishFetch (p : Int) (i : Nat)

/-- What a fetcher does by itself: neither a call of `FetchPart` nor a reply. -/
def FetchAction.isOwn {π : Type} : FetchAction π → Bool
  | .fetchPart _ _ | .reply _ _ _ => false
  | _ => true

namespace Cluster

variable (job : MapJoin K M O B)

def init : Cluster K M O B where
  toControlPlane := ControlPlane.init job
  partitions := fun _ => job.initial
  fetchers := fun _ _ => .init Unit job.numLocalThreads
  answered := fun _ => ∅
  released := fun _ _ => 0

/-! ## Updates -/

/-- The update function of `RunJoin` on the message's partition. -/
def applyJoin [LinearOrder K] (s : Cluster K M O B) (n : Int) (m : JoinMeta (List B)) :
    IndexedSeqPartition K O :=
  let part := s.partitions n m.partId
  if m.localMode then
    match (s.controller n).combiner.streamStore (Controller.streamKey m) with
    | none => part
    | some stream => part.joinStream job.obj job.update stream
  else part.joinBin job.obj job.codec job.update m.bin

/-- The partitions after the `i`-th task of the fetch executor of `n`. -/
def runJoinTask [LinearOrder K] (s : Cluster K M O B) (n : Int) (i : Nat) :
    Int → Int → IndexedSeqPartition K O :=
  match (s.controller n).pc.fetchExecutor[i]? with
  | some (.join m) =>
    Function.update s.partitions n
      (Function.update (s.partitions n) m.partId (applyJoin job s n m))
  | _ => s.partitions

/-- What an event does to the partitions. -/
def updated [LinearOrder K] (s : Cluster K M O B) (n : Int) :
    PlaneEvent → Int → Int → IndexedSeqPartition K O
  | .execFetch i => runJoinTask job s n i
  | _ => s.partitions

/-! ## Fetches -/

/-- The meta of `TypedCache::GetPartition` in a map of version `v`. -/
def fetchMeta (p v : Int) : FetchMeta :=
  ⟨job.planId, -1, job.fetchCollectionId, p, max (v - job.staleness) 0, true⟩

/-- `kFetchRequest` as the controller sees it. -/
def fetchReq (n : Int) (m : FetchMeta) : FetchReq :=
  ⟨m.planId, m.collectionId, m.partitionId, m.upstreamPartId, m.version, m.localMode,
    getFetcherQid n, getControllerActorQid (job.lookup m.collectionId m.partitionId)⟩

def setFetcher (s : Cluster K M O B) (n p : Int) (f : FetchSystem Unit) : Cluster K M O B :=
  { s with fetchers := Function.update s.fetchers n (Function.update (s.fetchers n) p f) }

def stepFetcher (s : Cluster K M O B) (n p : Int) (a : FetchAction Unit) :
    Except ClusterCheck (Cluster K M O B) := do
  let f ← ((s.fetchers n p).step false a).mapError .fetcher
  return s.setFetcher n p f

def stepPlane [LinearOrder K] (s : Cluster K M O B) (n : Int) (e : PlaneEvent) :
    Except ClusterCheck (Cluster K M O B) := do
  let plane ← (s.toControlPlane.step job (n, e)).mapError .plane
  return { s with toControlPlane := plane }

def takeRequest (f : FetchSystem Unit) (i : Nat) : FetchSystem Unit :=
  { f with fetcher := { f.fetcher with toController := f.fetcher.toController.eraseIdx i } }

/-- The meta that a reply carries. -/
def replyMeta (r : FetchReply) (localMode : Bool) : FetchMeta :=
  ⟨job.planId, r.upstreamPartId, r.collectionId, r.partId, r.version, localMode⟩

/-- `Fetcher::Process` on a reply of a controller. -/
def handleReply (f : Fetcher Unit) (r : FetchReply) (localMode : Bool) :
    Except FetcherCheck (Fetcher Unit) :=
  match r.flag with
  | .kFetchObjsReply => .ok f
  | .kFetchPartReplyLocal => f.fetchPartReplyLocal (replyMeta job r localMode) ()
  | .kFetchPartReplyRemote => f.fetchPartReplyRemote (replyMeta job r localMode) ()

def reply (s : Cluster K M O B) (n p : Int) (j : Nat) (localMode : Bool) :
    Except ClusterCheck (Cluster K M O B) :=
  let d := job.lookup job.fetchCollectionId p
  match (s.controller d).pc.toFetcher[j]? with
  | none => .ok s
  | some r =>
    if j ∉ s.answered d ∧ r.recver = getFetcherQid n ∧ r.partId = p then do
      let f ← (handleReply job (s.fetchers n p).fetcher r localMode).mapError .fetcher
      return { s.setFetcher n p { s.fetchers n p with fetcher := f } with
        answered := Function.update s.answered d (insert j (s.answered d)) }
    else .ok s

/-! ## One step -/

def getPartition (s : Cluster K M O B) (n p : Int) (t i : Nat) :
    Except ClusterCheck (Cluster K M O B) :=
  match (s.controller n).pc.mapExecutor[i]? with
  | none => .ok s
  | some task =>
    if task.started then s.stepFetcher n p (.fetchPart t (fetchMeta job p task.version))
    else .ok s

def requestPart [LinearOrder K] (s : Cluster K M O B) (n p : Int) (i : Nat) :
    Except ClusterCheck (Cluster K M O B) :=
  match (s.fetchers n p).fetcher.toController[i]? with
  | none => .ok s
  | some m =>
    (s.setFetcher n p (takeRequest (s.fetchers n p) i)).stepPlane job
      (job.lookup m.collectionId m.partitionId) (.kFetchRequest (fetchReq job n m))

def finishFetch [LinearOrder K] (s : Cluster K M O B) (n p : Int) (i : Nat) :
    Except ClusterCheck (Cluster K M O B) :=
  if s.released n p < (s.fetchers n p).fetcher.finished.length ∧
      (s.controller n).pc.localGrants[i]? = some p then
    stepPlane job { s with
      released := Function.update s.released n
        (Function.update (s.released n) p (s.released n p + 1)) } n (.releaseFetch i)
  else .ok s

def step [LinearOrder K] (s : Cluster K M O B) :
    Int × ClusterEvent → Except ClusterCheck (Cluster K M O B)
  | (n, e) =>
    if n ∈ job.nodes then
      match e with
      | .plane e =>
        if e.ofFetcher then .ok s
        else stepPlane job { s with partitions := updated job s n e } n e
      | .getPartition p t i => s.getPartition job n p t i
      | .fetcher p a => if a.isOwn then s.stepFetcher n p a else .ok s
      | .requestPart p i => s.requestPart job n p i
      | .requestObjs p u =>
        s.stepPlane job (job.lookup job.fetchCollectionId p) (.kFetchRequest
          (fetchReq job n ⟨job.planId, u, job.fetchCollectionId, p, -1, false⟩))
      | .reply p j localMode => s.reply job n p j localMode
      | .finishFetch p i => s.finishFetch job n p i
    else .ok s

/-- The states of every run. -/
def Reachable [LinearOrder K] (s : Cluster K M O B) : Prop :=
  Reach (step job) (fun _ _ => True) (init job) s

/-! ## What a step can do -/

/-- A step of the control plane, a step of one fetcher, or the arrival of a request. -/
inductive Move [LinearOrder K] (s : Cluster K M O B) : Cluster K M O B → Prop
  | stay : Move s s
  | plane (n : Int) (e : PlaneEvent) (he : e.ofFetcher = false) (hx : ∀ i, e ≠ .execFetch i)
      (plane : ControlPlane K M B) (h : s.toControlPlane.step job (n, e) = .ok plane) :
      Move s { s with toControlPlane := plane }
  | execFetch (n : Int) (hn : n ∈ job.nodes) (i : Nat) (x : Controller K M B)
      (h : (s.controller n).execFetch job n i = .ok x) :
      Move s { s with
        toControlPlane := s.toControlPlane.set n x
        partitions := runJoinTask job s n i }
  | getPartition (n p : Int) (t i : Nat) (task : MapTask)
      (hi : (s.controller n).pc.mapExecutor[i]? = some task) (f : FetchSystem Unit)
      (h : (s.fetchers n p).step false (.fetchPart t (fetchMeta job p task.version)) = .ok f) :
      Move s (s.setFetcher n p f)
  | fetcher (n p : Int) (a : FetchAction Unit) (ha : a.isOwn = true) (f : FetchSystem Unit)
      (h : (s.fetchers n p).step false a = .ok f) : Move s (s.setFetcher n p f)
  | requestPart (n p : Int) (i : Nat) (m : FetchMeta)
      (hi : (s.fetchers n p).fetcher.toController[i]? = some m) (plane : ControlPlane K M B)
      (h : s.toControlPlane.step job (job.lookup m.collectionId m.partitionId,
        .kFetchRequest (fetchReq job n m)) = .ok plane) :
      Move s { s.setFetcher n p (takeRequest (s.fetchers n p) i) with toControlPlane := plane }
  | requestObjs (n p u : Int) (plane : ControlPlane K M B)
      (h : s.toControlPlane.step job (job.lookup job.fetchCollectionId p, .kFetchRequest
        (fetchReq job n ⟨job.planId, u, job.fetchCollectionId, p, -1, false⟩)) = .ok plane) :
      Move s { s with toControlPlane := plane }
  | reply (n p d : Int) (j : Nat) (localMode : Bool) (r : FetchReply)
      (hj : (s.controller d).pc.toFetcher[j]? = some r) (f : Fetcher Unit)
      (h : handleReply job (s.fetchers n p).fetcher r localMode = .ok f) :
      Move s { s.setFetcher n p { s.fetchers n p with fetcher := f } with
        answered := Function.update s.answered d (insert j (s.answered d)) }
  | finishFetch (n p : Int) (i : Nat) (released : Int → Int → Nat) (plane : ControlPlane K M B)
      (h : s.toControlPlane.step job (n, .releaseFetch i) = .ok plane) :
      Move s { s with toControlPlane := plane, released := released }

section Inversion

variable {job} [LinearOrder K] {s s' : Cluster K M O B} {n p : Int} {i : Nat}

theorem stepPlane_eq_ok {e : PlaneEvent} (h : s.stepPlane job n e = .ok s') :
    ∃ plane, s.toControlPlane.step job (n, e) = .ok plane ∧
      s' = { s with toControlPlane := plane } := by
  obtain ⟨plane, hp, h⟩ := bind_eq_ok.mp h
  exact ⟨plane, mapError_eq_ok.mp hp, (Except.ok.inj h).symm⟩

omit [LinearOrder K] in
theorem stepFetcher_eq_ok {a : FetchAction Unit} (h : s.stepFetcher n p a = .ok s') :
    ∃ f, (s.fetchers n p).step false a = .ok f ∧ s' = s.setFetcher n p f := by
  obtain ⟨f, hf, h⟩ := bind_eq_ok.mp h
  exact ⟨f, mapError_eq_ok.mp hf, (Except.ok.inj h).symm⟩

theorem move_getPartition {t i : Nat} (h : s.getPartition job n p t i = .ok s') :
    Move job s s' := by
  unfold getPartition at h
  split at h
  · cases h
    exact .stay
  · next task hi =>
    split at h
    · obtain ⟨f, hf, rfl⟩ := stepFetcher_eq_ok h
      exact .getPartition n p t i task hi f hf
    · cases h
      exact .stay

theorem move_requestPart (h : s.requestPart job n p i = .ok s') : Move job s s' := by
  unfold requestPart at h
  split at h
  · cases h
    exact .stay
  · next m hi =>
    obtain ⟨plane, hp, rfl⟩ := stepPlane_eq_ok h
    exact .requestPart n p i m hi plane hp

theorem move_reply {j : Nat} {localMode : Bool} (h : s.reply job n p j localMode = .ok s') :
    Move job s s' := by
  simp only [reply] at h
  split at h
  · cases h
    exact .stay
  · next r hj =>
    split at h
    · obtain ⟨f, hf, h⟩ := bind_eq_ok.mp h
      cases h
      exact .reply n p _ j localMode r hj f (mapError_eq_ok.mp hf)
    · cases h
      exact .stay

theorem move_finishFetch (h : s.finishFetch job n p i = .ok s') : Move job s s' := by
  unfold finishFetch at h
  split at h
  · obtain ⟨plane, hp, rfl⟩ := stepPlane_eq_ok h
    exact .finishFetch n p i _ plane hp
  · cases h
    exact .stay

theorem step_execFetch (hn : n ∈ job.nodes) {plane : ControlPlane K M B} :
    s.toControlPlane.step job (n, .execFetch i) = .ok plane ↔
      ∃ x, (s.controller n).execFetch job n i = .ok x ∧ plane = s.toControlPlane.set n x := by
  simp only [ControlPlane.step, hn, if_true]
  constructor
  · intro h
    obtain ⟨x, hx, h⟩ := bind_eq_ok.mp h
    exact ⟨x, hx, (Except.ok.inj h).symm⟩
  · rintro ⟨x, hx, rfl⟩
    exact bind_eq_ok.mpr ⟨x, hx, rfl⟩

theorem move_stepPlane {e : PlaneEvent} {plane : ControlPlane K M B} (hn : n ∈ job.nodes)
    (he : e.ofFetcher = false) (h : s.toControlPlane.step job (n, e) = .ok plane) :
    Move job s { s with toControlPlane := plane, partitions := updated job s n e } := by
  by_cases hx : ∃ i, e = .execFetch i
  · obtain ⟨i, rfl⟩ := hx
    obtain ⟨x, hx, rfl⟩ := (step_execFetch hn).mp h
    exact .execFetch n hn i x hx
  · have hx : ∀ i, e ≠ .execFetch i := fun i hi => hx ⟨i, hi⟩
    have hsame : updated job s n e = s.partitions := by
      cases e with
      | execFetch i => exact absurd rfl (hx i)
      | _ => rfl
    rw [hsame]
    exact .plane n e he hx plane h

/-- **One step** of the cluster. -/
theorem step_move {a : Int × ClusterEvent} (h : step job s a = .ok s') : Move job s s' := by
  obtain ⟨n, e⟩ := a
  simp only [step] at h
  split at h
  · next hn =>
    cases e with
    | plane e =>
      simp only at h
      split at h
      · cases h
        exact .stay
      · next he =>
        obtain ⟨plane, hp, rfl⟩ := stepPlane_eq_ok h
        exact move_stepPlane hn (by simpa using he) hp
    | getPartition p t i => exact move_getPartition h
    | fetcher p a =>
      simp only at h
      split at h
      · next ha =>
        obtain ⟨f, hf, rfl⟩ := stepFetcher_eq_ok h
        exact .fetcher n p a ha f hf
      · cases h
        exact .stay
    | requestPart p i => exact move_requestPart h
    | requestObjs p u =>
      obtain ⟨plane, hp, rfl⟩ := stepPlane_eq_ok h
      exact .requestObjs n p u plane hp
    | reply p j localMode => exact move_reply h
    | finishFetch p i => exact move_finishFetch h
  · cases h
    exact .stay

/-- A step that runs no task of a fetch executor changes no partition. -/
theorem step_quiet {e : ClusterEvent} (he : ∀ i, e ≠ .plane (.execFetch i))
    (h : step job s (n, e) = .ok s') :
    s'.partitions = s.partitions ∧ (s'.toControlPlane = s.toControlPlane ∨
      ∃ m f, (∀ i, f ≠ .execFetch i) ∧ (f.ofFetcher = true ∨ (m = n ∧ e = .plane f)) ∧
        s.toControlPlane.step job (m, f) = .ok s'.toControlPlane) := by
  simp only [step] at h
  split at h
  · next hn =>
    cases e with
    | plane e =>
      have hx : ∀ i, e ≠ .execFetch i := fun i hi => he i (congrArg _ hi)
      simp only at h
      split at h
      · cases h
        exact ⟨rfl, .inl rfl⟩
      · obtain ⟨plane, hp, rfl⟩ := stepPlane_eq_ok h
        refine ⟨?_, .inr ⟨n, e, hx, .inr ⟨rfl, rfl⟩, hp⟩⟩
        cases e with
        | execFetch i => exact absurd rfl (hx i)
        | _ => rfl
    | requestPart p i =>
      replace h : s.requestPart job n p i = .ok s' := h
      unfold requestPart at h
      split at h
      · cases h
        exact ⟨rfl, .inl rfl⟩
      · obtain ⟨plane, hp, rfl⟩ := stepPlane_eq_ok h
        exact ⟨rfl, .inr ⟨_, _, by simp, .inl rfl, hp⟩⟩
    | requestObjs p u =>
      obtain ⟨plane, hp, rfl⟩ := stepPlane_eq_ok h
      exact ⟨rfl, .inr ⟨_, _, by simp, .inl rfl, hp⟩⟩
    | finishFetch p i =>
      replace h : s.finishFetch job n p i = .ok s' := h
      unfold finishFetch at h
      split at h
      · obtain ⟨plane, hp, rfl⟩ := stepPlane_eq_ok h
        exact ⟨rfl, .inr ⟨_, _, by simp, .inl rfl, hp⟩⟩
      · cases h
        exact ⟨rfl, .inl rfl⟩
    | getPartition p t i =>
      replace h : s.getPartition job n p t i = .ok s' := h
      unfold getPartition at h
      split at h
      · cases h
        exact ⟨rfl, .inl rfl⟩
      · split at h
        · obtain ⟨f, hf, rfl⟩ := stepFetcher_eq_ok h
          exact ⟨rfl, .inl rfl⟩
        · cases h
          exact ⟨rfl, .inl rfl⟩
    | fetcher p a =>
      simp only at h
      split at h
      · obtain ⟨f, hf, rfl⟩ := stepFetcher_eq_ok h
        exact ⟨rfl, .inl rfl⟩
      · cases h
        exact ⟨rfl, .inl rfl⟩
    | reply p j localMode =>
      simp only [reply] at h
      split at h
      · cases h
        exact ⟨rfl, .inl rfl⟩
      · split at h
        · obtain ⟨f, hf, h⟩ := bind_eq_ok.mp h
          cases h
          exact ⟨rfl, .inl rfl⟩
        · cases h
          exact ⟨rfl, .inl rfl⟩
  · cases h
    exact ⟨rfl, .inl rfl⟩

/-- A task of a fetch executor runs. -/
theorem step_exec (hn : n ∈ job.nodes) (h : step job s (n, .plane (.execFetch i)) = .ok s') :
    ∃ x, (s.controller n).execFetch job n i = .ok x ∧
      s'.toControlPlane = s.toControlPlane.set n x ∧ s'.partitions = runJoinTask job s n i := by
  simp only [step, if_pos hn] at h
  obtain ⟨plane, hp, rfl⟩ := stepPlane_eq_ok h
  obtain ⟨x, hx, rfl⟩ := (step_execFetch hn).mp hp
  exact ⟨x, hx, rfl, rfl⟩

/-- **Invariants of the cluster.** -/
theorem Reachable.induct {P : Cluster K M O B → Prop} (hs : Reachable job s)
    (h0 : P (init job)) (hmove : ∀ s s', P s → Move job s s' → P s') : P s :=
  Reach.induct hs h0 fun t _ u _ hP _ hstep => hmove t u hP (step_move hstep)

/-- A move of the cluster is a step of its control plane, or leaves it as it is. -/
theorem move_plane (hm : Move job s s') :
    s'.toControlPlane = s.toControlPlane ∨
      ∃ a, s.toControlPlane.step job a = .ok s'.toControlPlane := by
  cases hm with
  | plane n e he hx plane h => exact .inr ⟨_, h⟩
  | execFetch n hn i x h => exact .inr ⟨_, (step_execFetch hn).mpr ⟨x, h, rfl⟩⟩
  | requestPart n p i m hi plane h => exact .inr ⟨_, h⟩
  | requestObjs n p u plane h => exact .inr ⟨_, h⟩
  | finishFetch n p i released plane h => exact .inr ⟨_, h⟩
  | _ => exact .inl rfl

/-- **A run of the cluster is a run of its control plane.** -/
theorem Reachable.plane (hs : Reachable job s) :
    ControlPlane.Reachable job s.toControlPlane := by
  refine hs.induct (P := fun s => ControlPlane.Reachable job s.toControlPlane) .refl
    fun s s' h hm => ?_
  rcases move_plane hm with heq | ⟨a, hstep⟩
  · rw [heq]
    exact h
  · exact .tail h trivial hstep

end Inversion

end Cluster

end Tangram
