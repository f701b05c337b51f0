import Tangram.Worker.PlanController

/-!
# What one step of a plan controller can do

Every step is one change that its action names (`Head`) followed by any number
of internal changes (`Tail`): maps are launched, waiting requests are popped.

    step c s a = .ok s' → ∃ s₁, Head c s a s₁ ∧ ReflTransGen (Tail c) s₁ s'   (step_head_tail)

An invariant is proved by `reachIf_induct`: at the start, for every `Head`, and
for every `Tail`.
-/

namespace Tangram

open StepRun Relation

namespace PlanController

variable {β : Type} (c : Spec) {s s' : PlanController β} {p : Int}

/-! ## Changes -/

/-- The change that an action makes first. -/
inductive Head : PlanController β → Action β → PlanController β → Prop
  | noop (s : PlanController β) (a : Action β) (ha : ∀ m, a ≠ .kReceiveJoin m)
      (hv : ∀ v, a ≠ .kUpdateVersion v) : Head s a s
  | bufferJoin (s : PlanController β) (m : JoinMeta β) (hk : m.partId ∉ s.updateVersions.keys) :
      Head s (.kReceiveJoin m) (s.buffer (.join m))
  | ignoreJoin (s : PlanController β) (m : JoinMeta β) (hk : m.partId ∈ s.updateVersions.keys)
      (hj : isJoinedBefore s m = .ok true) :
      Head s (.kReceiveJoin m) (ignore { s with received := s.received ++ [m] } m)
  | pendJoin (s : PlanController β) (m : JoinMeta β) (hk : m.partId ∈ s.updateVersions.keys)
      (hj : isJoinedBefore s m = .ok false) (hc : c.mapCollectionId = c.updateCollectionId)
      (hv : s.mapVersions.val m.partId ≤ m.version) :
      Head s (.kReceiveJoin m) (pushPending { s with received := s.received ++ [m] } m)
  | waitJoin (s : PlanController β) (m : JoinMeta β) (hk : m.partId ∈ s.updateVersions.keys)
      (hj : isJoinedBefore s m = .ok false)
      (hv : c.mapCollectionId = c.updateCollectionId → m.version < s.mapVersions.val m.partId) :
      Head s (.kReceiveJoin m)
        (pushWaiting { s with received := s.received ++ [m] } m.partId (.join m))
  | runFetch (s : PlanController β) (f : FetchReq)
      (hp : f.partId ∈ c.partitions c.fetchCollectionId)
      (hf : f.collectionId = c.fetchCollectionId)
      (hr : c.fetchCollectionId = c.updateCollectionId → s.runningUpdates f.partId = none) :
      Head s (.kFetchRequest f) (runFetchRequest c s f)
  | bufferFetch (s : PlanController β) (f : FetchReq) (hk : f.partId ∉ s.updateVersions.keys) :
      Head s (.kFetchRequest f) (s.buffer (.fetch f))
  | waitFetch (s : PlanController β) (f : FetchReq) (hk : f.partId ∈ s.updateVersions.keys)
      (hf : f.collectionId = c.fetchCollectionId)
      (hc : c.fetchCollectionId = c.updateCollectionId)
      (hr : (s.runningUpdates f.partId).isSome) :
      Head s (.kFetchRequest f) (s.pushWaiting f.partId (.fetch f))
  | releaseFetch (s : PlanController β) (i : Nat) (p : Int) (hi : s.localGrants[i]? = some p) :
      Head s (.releaseFetch i) (addRunningFetch (takeGrant s i) p (-1))
  | updateVersion (s : PlanController β) (v : Int) (hlt : v < c.expectedNumIter)
      (hv : v = s.minVersion + 1) : Head s (.kUpdateVersion v) (setMinVersion s v)
  | abortBegin (s : PlanController β) (i : Nat) (t : MapTask) (hi : s.mapExecutor[i]? = some t)
      (hs : (s.stopUpdateingPartitions t.partId).isSome) :
      Head s (.beginMap i) (abortMap s i t)
  | beginMap (s : PlanController β) (i : Nat) (t : MapTask) (hi : s.mapExecutor[i]? = some t) :
      Head s (.beginMap i) { s with mapExecutor := s.mapExecutor.set i { t with started := true } }
  | abortEnd (s : PlanController β) (i : Nat) (t : MapTask) (hi : s.mapExecutor[i]? = some t)
      (hs : (s.stopUpdateingPartitions t.partId).isSome) :
      Head s (.endMap i) (abortMap s i t)
  | endMap (s : PlanController β) (i : Nat) (t : MapTask) (hi : s.mapExecutor[i]? = some t)
      (hs : t.started = true) :
      Head s (.endMap i)
        { s with
          mapExecutor := s.mapExecutor.eraseIdx i
          mapped := s.mapped ++ [(t.partId, t.version)]
          workQueue := s.workQueue ++ [.kFinishMap t.partId true] }
  | execJoin (s : PlanController β) (i : Nat) (m : JoinMeta β)
      (hi : s.fetchExecutor[i]? = some (.join m)) :
      Head s (.execFetch i)
        { taskDone s i (.kFinishJoin m.partId m.version m.ids) with applied := s.applied ++ [m] }
  | execCheckpoint (s : PlanController β) (i : Nat) (p iter : Int)
      (hi : s.fetchExecutor[i]? = some (.checkpoint p iter)) :
      Head s (.execFetch i)
        { taskDone s i (.kFinishCheckpoint p) with checkpoints := s.checkpoints ++ [(p, iter)] }
  | execFetch (s : PlanController β) (i : Nat) (f : FetchReq) (v : Int)
      (hi : s.fetchExecutor[i]? = some (.fetch f v)) :
      Head s (.execFetch i)
        { taskDone s i (.kFinishFetch f.partId f.upstreamPartId) with
          toFetcher := s.toFetcher ++ [fetchReply f v] }
  | finishMapGone (s : PlanController β) (i : Nat) (p : Int) (b : Bool)
      (hi : s.workQueue[i]? = some (.kFinishMap p b)) (hk : p ∉ s.mapVersions.keys) :
      Head s (.process i) (mapDone (takeMsg s i) p)
  | finishMap (s : PlanController β) (i : Nat) (p : Int) (b : Bool)
      (hi : s.workQueue[i]? = some (.kFinishMap p b)) (hk : p ∈ s.mapVersions.keys)
      (hc : c.mapCollectionId ≠ c.updateCollectionId) :
      Head s (.process i) (countMap c (mapDone (takeMsg s i) p) p)
  | finishMapJoin (s : PlanController β) (i : Nat) (p : Int) (b : Bool)
      (hi : s.workQueue[i]? = some (.kFinishMap p b)) (hk : p ∈ s.mapVersions.keys)
      (hc : c.mapCollectionId = c.updateCollectionId) :
      Head s (.process i)
        (releasePending (countMap c (mapDone (takeMsg s i) p) p) p (s.mapVersions.val p))
  | trackJoin (s : PlanController β) (i : Nat) (p v : Int) (ups : List Int)
      (hi : s.workQueue[i]? = some (.kFinishJoin p v ups))
      (hn : (s.updateTracker p v ∪ ups.toFinset).card ≠ c.numUpstreamPart) :
      Head s (.process i) (trackJoin (takeMsg s i) p v ups)
  | complete (s : PlanController β) (i : Nat) (p v : Int) (ups : List Int)
      (hi : s.workQueue[i]? = some (.kFinishJoin p v ups))
      (hn : (s.updateTracker p v ∪ ups.toFinset).card = c.numUpstreamPart) :
      Head s (.process i) (reportJoin c
        (completeVersion (PlanController.trackJoin (takeMsg s i) p v ups) p v) p)
  | completeCheckpoint (s : PlanController β) (i : Nat) (p v : Int) (ups : List Int)
      (hi : s.workQueue[i]? = some (.kFinishJoin p v ups))
      (hn : (s.updateTracker p v ∪ ups.toFinset).card = c.numUpstreamPart) :
      Head s (.process i) (startCheckpoint c
        (completeVersion (PlanController.trackJoin (takeMsg s i) p v ups) p v) p)
  | finishFetch (s : PlanController β) (i : Nat) (p u : Int)
      (hi : s.workQueue[i]? = some (.kFinishFetch p u)) :
      Head s (.process i) (addRunningFetch (takeMsg s i) p (-1))
  | finishCheckpoint (s : PlanController β) (i : Nat) (p : Int)
      (hi : s.workQueue[i]? = some (.kFinishCheckpoint p))
      (hr : (s.runningUpdates p).isSome) :
      Head s (.process i) (reportJoin c (releaseUpdate (takeMsg s i) p) p)

/-- The changes a handler makes after that. -/
inductive Tail : PlanController β → PlanController β → Prop
  | launch (s : PlanController β) (p : Int) (hr : isMapRunnable c s p = true)
      (hp : p ∈ c.partitions c.mapCollectionId) :
      Tail s { s with
        runningMaps := insert p s.runningMaps
        mapExecutor := s.mapExecutor ++ [⟨p, s.mapVersions.val p, false⟩] }
  | popDuplicate (s : PlanController β) (p : Int) (m : JoinMeta β)
      (rest : List (VersionedJoinMeta β)) (hq : s.waitingUpdates p = .join m :: rest)
      (hb : ¬ Blocked c s p) (hj : isJoinedBefore s m = .ok true) :
      Tail s ((s.setWaiting p rest).ignore m)
  | popFetch (s : PlanController β) (p : Int) (f : FetchReq)
      (rest : List (VersionedJoinMeta β)) (hq : s.waitingUpdates p = .fetch f :: rest)
      (hb : ¬ Blocked c s p) : Tail s (runFetchRequest c (s.setWaiting p rest) f)
  | popJoin (s : PlanController β) (p : Int) (m : JoinMeta β)
      (rest : List (VersionedJoinMeta β)) (hq : s.waitingUpdates p = .join m :: rest)
      (hb : ¬ Blocked c s p) (hj : isJoinedBefore s m = .ok false)
      (hr : s.runningUpdates m.partId = none) :
      Tail s { s.setWaiting p rest with
        runningUpdates := Function.update s.runningUpdates m.partId (some m.upstream.partId)
        fetchExecutor := s.fetchExecutor ++ [.join m] }

/-! ## Sub-handlers are internal changes -/

theorem runMap_eq_ok {p v : Int} (h : runMap s p v = .ok s') :
    p ∉ s.runningMaps ∧ s' = { s with
      runningMaps := insert p s.runningMaps
      mapExecutor := s.mapExecutor ++ [⟨p, v, false⟩] } := by
  unfold runMap at h
  obtain ⟨u, hu, h⟩ := bind_eq_ok.mp h
  exact ⟨check_eq_ok.mp hu, (Except.ok.inj h).symm⟩

theorem startJoin_eq_ok {m : JoinMeta β} (h : startJoin s m = .ok s') :
    s.runningUpdates m.partId = none ∧ s' = { s with
      runningUpdates := Function.update s.runningUpdates m.partId (some m.upstream.partId)
      fetchExecutor := s.fetchExecutor ++ [.join m] } := by
  unfold startJoin at h
  obtain ⟨u, hu, h⟩ := bind_eq_ok.mp h
  exact ⟨check_eq_ok.mp hu, (Except.ok.inj h).symm⟩

theorem runSomeMaps_tail (ps : List Int) (s s' : PlanController β)
    (h : runSomeMaps c ps s = .ok s') : ReflTransGen (Tail c) s s' := by
  induction ps generalizing s with
  | nil =>
    cases h
    exact .refl
  | cons p ps ih =>
    unfold runSomeMaps at h
    split at h
    · next hr =>
      obtain ⟨u, hu, h⟩ := bind_eq_ok.mp h
      obtain ⟨s₁, h₁, h⟩ := bind_eq_ok.mp h
      obtain ⟨-, rfl⟩ := runMap_eq_ok h₁
      exact .head (Tail.launch s p hr (check_eq_ok.mp hu)) (ih _ h)
    · exact ih _ h

theorem tryRunSomeMaps_tail (h : tryRunSomeMaps c s = .ok s') : ReflTransGen (Tail c) s s' := by
  unfold tryRunSomeMaps at h
  split at h
  · cases h
    exact .refl
  · exact runSomeMaps_tail c _ _ _ h

theorem runWaitingJoins_tail (p : Int) (q : List (VersionedJoinMeta β)) (s s' : PlanController β)
    (hq : s.waitingUpdates p = q) (h : runWaitingJoins c p q s = .ok s') :
    ReflTransGen (Tail c) s s' := by
  induction q generalizing s with
  | nil =>
    cases h
    exact .refl
  | cons e rest ih =>
    unfold runWaitingJoins at h
    split at h
    · cases h
      exact .refl
    · next hb =>
      cases e with
      | fetch f =>
        cases h
        exact .single (Tail.popFetch s p f rest hq hb)
      | join m =>
        simp only [runJoin] at h
        obtain ⟨joined, hj, h⟩ := bind_eq_ok.mp h
        cases joined with
        | true =>
          refine .head (Tail.popDuplicate s p m rest hq hb hj) (ih _ ?_ h)
          simp [ignore, setWaiting]
        | false =>
          obtain ⟨hr, rfl⟩ := startJoin_eq_ok h
          exact .single (Tail.popJoin s p m rest hq hb hj hr)

theorem tryRunWaitingJoins_tail (h : tryRunWaitingJoins c s p = .ok s') :
    ReflTransGen (Tail c) s s' :=
  runWaitingJoins_tail c p _ s s' rfl h

/-! ## Handlers -/

variable {c} {i : Nat} {ok : PlanController β → Action β → Prop} {B P : PlanController β → Prop}

theorem receiveJoin_head_tail {m : JoinMeta β} (h : receiveJoin c s m = .ok s') :
    ∃ s₁, Head c s (.kReceiveJoin m) s₁ ∧ ReflTransGen (Tail c) s₁ s' := by
  unfold receiveJoin at h
  split at h
  · next hk =>
    cases h
    exact ⟨_, Head.bufferJoin s m hk, .refl⟩
  · next hk =>
    have hk := not_not.mp hk
    obtain ⟨joined, hj, h⟩ := bind_eq_ok.mp h
    cases joined with
    | true =>
      cases h
      exact ⟨_, Head.ignoreJoin s m hk hj, .refl⟩
    | false =>
      simp only [Bool.false_eq_true, if_false] at h
      split at h
      · next hv =>
        cases h
        exact ⟨_, Head.pendJoin s m hk hj hv.1 hv.2, .refl⟩
      · next hv =>
        exact ⟨_, Head.waitJoin s m hk hj (fun hc => not_le.mp fun hle => hv ⟨hc, hle⟩),
          tryRunWaitingJoins_tail c h⟩

theorem receiveFetchRequest_head {f : FetchReq} (h : receiveFetchRequest c s f = .ok s') :
    Head c s (.kFetchRequest f) s' := by
  unfold receiveFetchRequest at h
  obtain ⟨_, _, h⟩ := bind_eq_ok.mp h
  obtain ⟨_, hp, h⟩ := bind_eq_ok.mp h
  obtain ⟨_, hf, h⟩ := bind_eq_ok.mp h
  obtain ⟨_, _, h⟩ := bind_eq_ok.mp h
  have hf := check_eq_ok.mp hf
  have hp := check_eq_ok.mp hp
  rw [hf] at hp h
  split at h
  · next hu =>
    cases h
    exact Head.runFetch s f hp hf (fun e => absurd e hu)
  · next hu =>
    split at h
    · next hk =>
      cases h
      exact Head.bufferFetch s f hk
    · next hk =>
      split at h
      · next hr =>
        cases h
        exact Head.waitFetch s f (not_not.mp hk) hf (not_not.mp hu) hr
      · next hr =>
        cases h
        exact Head.runFetch s f hp hf (fun _ => by simpa using hr)

theorem finishMap_head_tail {b : Bool} (hi : s.workQueue[i]? = some (.kFinishMap p b))
    (h : finishMap c (takeMsg s i) p = .ok s') :
    ∃ s₁, Head c s (.process i) s₁ ∧ ReflTransGen (Tail c) s₁ s' := by
  unfold finishMap at h
  simp only at h
  split at h
  · next hk =>
    cases h
    exact ⟨_, Head.finishMapGone s i p b hi hk, .refl⟩
  · next hk =>
    split at h
    · next hc =>
      obtain ⟨s₂, h₂, h⟩ := bind_eq_ok.mp h
      exact ⟨_, Head.finishMapJoin s i p b hi (not_not.mp hk) hc,
        (tryRunWaitingJoins_tail c h₂).trans (tryRunSomeMaps_tail c h)⟩
    · next hc =>
      exact ⟨_, Head.finishMap s i p b hi (not_not.mp hk) hc, tryRunSomeMaps_tail c h⟩

theorem tryCheckpoint_eq_ok {b : Bool} (h : tryCheckpoint c s p = .ok (b, s')) :
    (b = true ∧ s' = startCheckpoint c s p) ∨ (b = false ∧ s' = s) := by
  unfold tryCheckpoint at h
  split at h
  · obtain ⟨_, _, h⟩ := bind_eq_ok.mp h
    cases h
    exact .inl ⟨rfl, rfl⟩
  · cases h
    exact .inr ⟨rfl, rfl⟩

theorem trackJoin_tracker (s : PlanController β) (i : Nat) (p v : Int) (ups : List Int) :
    (trackJoin (takeMsg s i) p v ups).updateTracker p v = s.updateTracker p v ∪ ups.toFinset := by
  simp [trackJoin, takeMsg]

theorem finishJoin_head_tail {p v : Int} {ups : List Int}
    (hi : s.workQueue[i]? = some (.kFinishJoin p v ups))
    (h : finishJoin c (takeMsg s i) p v ups = .ok s') :
    ∃ s₁, Head c s (.process i) s₁ ∧ ReflTransGen (Tail c) s₁ s' := by
  unfold finishJoin at h
  simp only [trackJoin_tracker] at h
  split at h
  · next hn =>
    obtain ⟨⟨b, s₂⟩, h₂, h⟩ := bind_eq_ok.mp h
    rcases tryCheckpoint_eq_ok h₂ with ⟨rfl, rfl⟩ | ⟨rfl, rfl⟩
    · cases h
      exact ⟨_, Head.completeCheckpoint s i p v ups hi hn, .refl⟩
    · exact ⟨_, Head.complete s i p v ups hi hn, tryRunWaitingJoins_tail c h⟩
  · next hn =>
    exact ⟨_, Head.trackJoin s i p v ups hi hn, tryRunWaitingJoins_tail c h⟩

theorem finishCheckpoint_head_tail (hi : s.workQueue[i]? = some (.kFinishCheckpoint p))
    (h : finishCheckpoint c (takeMsg s i) p = .ok s') :
    ∃ s₁, Head c s (.process i) s₁ ∧ ReflTransGen (Tail c) s₁ s' := by
  unfold finishCheckpoint at h
  obtain ⟨u, hu, h⟩ := bind_eq_ok.mp h
  obtain ⟨s₂, h₂, h⟩ := bind_eq_ok.mp h
  exact ⟨_, Head.finishCheckpoint s i p hi (check_eq_ok.mp hu),
    (tryRunWaitingJoins_tail c h₂).trans (tryRunSomeMaps_tail c h)⟩

theorem updateVersion_head_tail {v : Int} (h : updateVersion c s v = .ok s') :
    ∃ s₁, Head c s (.kUpdateVersion v) s₁ ∧ ReflTransGen (Tail c) s₁ s' := by
  unfold updateVersion at h
  obtain ⟨_, hlt, h⟩ := bind_eq_ok.mp h
  obtain ⟨_, hv, h⟩ := bind_eq_ok.mp h
  exact ⟨_, Head.updateVersion s v (check_eq_ok.mp hlt) (check_eq_ok.mp hv),
    tryRunSomeMaps_tail c h⟩

theorem beginMap_head (s : PlanController β) (i : Nat) :
    Head c s (.beginMap i) (beginMap s i) := by
  unfold beginMap
  split
  · exact Head.noop s _ (by simp) (by simp)
  · next t hi =>
    split
    · next hs => exact Head.abortBegin s i t hi hs
    · exact Head.beginMap s i t hi

theorem endMap_head (s : PlanController β) (i : Nat) : Head c s (.endMap i) (endMap s i) := by
  unfold endMap
  split
  · exact Head.noop s _ (by simp) (by simp)
  · next t hi =>
    split
    · exact Head.noop s _ (by simp) (by simp)
    · next ht =>
      split
      · next hs => exact Head.abortEnd s i t hi hs
      · exact Head.endMap s i t hi (by simpa using ht)

theorem execFetch_head (h : execFetch c s i = .ok s') : Head c s (.execFetch i) s' := by
  unfold execFetch at h
  split at h
  · cases h
    exact Head.noop s _ (by simp) (by simp)
  · next m hi =>
    obtain ⟨_, _, h⟩ := bind_eq_ok.mp h
    cases h
    exact Head.execJoin s i m hi
  · next p iter hi =>
    obtain ⟨_, _, h⟩ := bind_eq_ok.mp h
    cases h
    exact Head.execCheckpoint s i p iter hi
  · next f v hi =>
    obtain ⟨_, _, h⟩ := bind_eq_ok.mp h
    cases h
    exact Head.execFetch s i f v hi

/-- **One step** is the change of its action, then internal changes. -/
theorem step_head_tail {a : Action β} (h : step c s a = .ok s') :
    ∃ s₁, Head c s a s₁ ∧ ReflTransGen (Tail c) s₁ s' := by
  cases a with
  | kStart => exact ⟨s, Head.noop s _ (by simp) (by simp), tryRunSomeMaps_tail c h⟩
  | kReceiveJoin m => exact receiveJoin_head_tail h
  | kFetchRequest f => exact ⟨s', receiveFetchRequest_head h, .refl⟩
  | releaseFetch i =>
    simp only [step] at h
    split at h
    · cases h
      exact ⟨s, Head.noop s _ (by simp) (by simp), .refl⟩
    · next p hi => exact ⟨_, Head.releaseFetch s i p hi, tryRunWaitingJoins_tail c h⟩
  | kUpdateVersion v => exact updateVersion_head_tail h
  | beginMap i =>
    cases h
    exact ⟨_, beginMap_head s i, .refl⟩
  | endMap i =>
    cases h
    exact ⟨_, endMap_head s i, .refl⟩
  | execFetch i => exact ⟨s', execFetch_head h, .refl⟩
  | process i =>
    simp only [step] at h
    split at h
    · cases h
      exact ⟨s, Head.noop s _ (by simp) (by simp), .refl⟩
    · next e hi =>
      cases e with
      | kFinishMap p b => exact finishMap_head_tail hi h
      | kFinishJoin p v ups => exact finishJoin_head_tail hi h
      | kFinishFetch p u => exact ⟨_, Head.finishFetch s i p u hi, tryRunWaitingJoins_tail c h⟩
      | kFinishCheckpoint p => exact finishCheckpoint_head_tail hi h

/-! ## Invariants -/

/-- What holds before a step, and is kept by its first change and by every internal change,
holds after it. -/
theorem step_induct {P : PlanController β → Prop} {a : Action β} (h : step c s a = .ok s')
    (hhead : ∀ s₁, Head c s a s₁ → P s₁) (htail : ∀ t u, P t → Tail c t u → P u) : P s' := by
  obtain ⟨s₁, hh, ht⟩ := step_head_tail h
  clear h
  induction ht with
  | refl => exact hhead s₁ hh
  | tail _ hs ih => exact htail _ _ ih hs

/-- `B` holds at the start and is kept by every change. -/
structure Stable (c : Spec) (B : PlanController β → Prop) : Prop where
  start : B (setup c)
  head : ∀ s a s₁, B s → Head c s a s₁ → B s₁
  tail : ∀ t u, B t → Tail c t u → B u

/-- **Invariants of a run.**  `B` is an invariant that is known already. -/
theorem reachIf_induct {s : PlanController β} (hs : ReachIf c ok s) (hB : Stable c B)
    (h0 : P (setup c)) (hhead : ∀ s a s₁, B s → P s → ok s a → Head c s a s₁ → P s₁)
    (htail : ∀ t u, B t → P t → Tail c t u → P u) : B s ∧ P s := by
  refine Reach.induct (P := fun s => B s ∧ P s) hs ⟨hB.start, h0⟩ fun t a _ _ hP ha hstep => ?_
  refine step_induct (P := fun s => B s ∧ P s) hstep (fun s₁ hh => ?_) fun t u h ht => ?_
  · exact ⟨hB.head _ _ _ hP.1 hh, hhead t a s₁ hP.1 hP.2 ha hh⟩
  · exact ⟨hB.tail _ _ h.1 ht, htail t u h.1 h.2 ht⟩

theorem Stable.reachIf {B : PlanController β → Prop} {s : PlanController β} (hB : Stable c B)
    (hs : ReachIf c ok s) : B s :=
  (reachIf_induct (P := fun _ => True) hs hB trivial (fun _ _ _ _ _ _ _ => trivial)
    fun _ _ _ _ _ => trivial).1

/-- An invariant whose proof uses another. -/
theorem Stable.and (hB : Stable c B) (h0 : P (setup c))
    (hhead : ∀ s a s₁, B s → P s → Head c s a s₁ → P s₁)
    (htail : ∀ t u, B t → P t → Tail c t u → P u) : Stable c fun s => B s ∧ P s where
  start := ⟨hB.start, h0⟩
  head s a s₁ h hh := ⟨hB.head s a s₁ h.1 hh, hhead s a s₁ h.1 h.2 hh⟩
  tail t u h ht := ⟨hB.tail t u h.1 ht, htail t u h.1 h.2 ht⟩

end PlanController

end Tangram
