import Tangram.Worker.Layout

/-!
# Exclusion on a partition

The controller's own books (`running_updates_`, `running_maps_`,
`running_fetches_`) agree with what occupies its partitions in every reachable
state, so the guards of the handlers that read the books exclude what they are
meant to exclude.

    Reachable c s → Layout c s ∧ ∀ p, Excl c s p                            (excl_stable)
    step c s a = .error e → e ∈ a.checks                                    (step_error)
-/

namespace Tangram

open StepRun List Function
open scoped List

variable {β : Type}

/-- The checks of `IsJoinedBefore`. -/
def Check.ofJoin : List Check := [.joinedBeforeEmpty, .joinedBeforeMixed]

/-- The checks that an action can fail at: they are about what the controller is sent. -/
def PlanController.Action.checks : PlanController.Action β → List Check
  | .kReceiveJoin _ | .releaseFetch _ | .process _ => Check.ofJoin
  | .kFetchRequest _ => [.fetchPlan, .fetchHas, .fetchCollection, .fetchRecver]
  | .kUpdateVersion _ => [.updateVersionLt, .updateVersionNext]
  | .execFetch _ => [.fetchHas]
  | .kStart | .beginMap _ | .endMap _ => []

namespace PlanController

variable {c : Spec} {s s' : PlanController β} {e : Check} {p : Int}

/-! ## The books agree with what runs -/

/-- What holds of one partition. -/
structure Excl (c : Spec) (s : PlanController β) (p : Int) : Prop where
  updates : s.inUse.count (.update p) = if (s.runningUpdates p).isSome then 1 else 0
  maps : s.inUse.count (.map p) = if p ∈ s.runningMaps then 1 else 0
  fetches : s.runningFetches p = s.inUse.count (.fetch p)
  noFetch : c.fetchCollectionId = c.updateCollectionId → (s.runningUpdates p).isSome →
    s.runningFetches p = 0
  noMap : c.mapCollectionId = c.updateCollectionId → (s.runningUpdates p).isSome →
    p ∉ s.runningMaps

theorem excl_setup (p : Int) : Excl c (setup c : PlanController β) p where
  updates := by simp [inUse, setup]
  maps := by simp [inUse, setup]
  fetches := by simp [inUse, setup]
  noFetch _ h := by simp [setup] at h
  noMap _ h := by simp [setup] at h

section Changes

variable {s s' : PlanController β} {p q : Int}

/-- A task changes its place only. -/
theorem Excl.perm (h : Excl c s p) (hu : s'.inUse ~ s.inUse)
    (hU : s'.runningUpdates = s.runningUpdates) (hM : s'.runningMaps = s.runningMaps)
    (hF : s'.runningFetches = s.runningFetches) : Excl c s' p where
  updates := by rw [hu.count_eq, hU, h.updates]
  maps := by rw [hu.count_eq, hM, h.maps]
  fetches := by rw [hu.count_eq, hF, h.fetches]
  noFetch := by rw [hU, hF]; exact h.noFetch
  noMap := by rw [hU, hM]; exact h.noMap

theorem Excl.addFetch (h : Excl c s p) (hu : s'.inUse ~ .fetch q :: s.inUse)
    (hU : s'.runningUpdates = s.runningUpdates) (hM : s'.runningMaps = s.runningMaps)
    (hF : s'.runningFetches = update s.runningFetches q (s.runningFetches q + 1))
    (hr : c.fetchCollectionId = c.updateCollectionId → s.runningUpdates q = none) :
    Excl c s' p where
  updates := by
    rw [hu.count_eq, hU, count_cons_of_ne (by simp), h.updates]
  maps := by
    rw [hu.count_eq, hM, count_cons_of_ne (by simp), h.maps]
  fetches := by
    have hf := h.fetches
    rw [hu.count_eq, hF, count_cons]
    by_cases hp : p = q
    · subst hp
      rw [update_self, hf]
      simp
    · rw [update_of_ne hp, hf]
      simp [Ne.symm hp]
  noFetch := by
    intro hc hs
    rw [hU] at hs
    by_cases hp : p = q
    · subst hp
      rw [hr hc] at hs
      cases hs
    · rw [hF, update_of_ne hp]
      exact h.noFetch hc hs
  noMap := by rw [hU, hM]; exact h.noMap

theorem Excl.dropFetch (h : Excl c s p) (hu : s.inUse ~ .fetch q :: s'.inUse)
    (hU : s'.runningUpdates = s.runningUpdates) (hM : s'.runningMaps = s.runningMaps)
    (hF : s'.runningFetches = update s.runningFetches q (s.runningFetches q + -1)) :
    Excl c s' p := by
  have hcount : s.inUse.count (.fetch p) = s'.inUse.count (.fetch p) + if q = p then 1 else 0 := by
    rw [hu.count_eq, count_cons]
    simp
  have hf := h.fetches
  refine ⟨?_, ?_, ?_, fun hc hs => ?_, ?_⟩
  · rw [hU, ← h.updates, hu.count_eq, count_cons_of_ne (by simp)]
  · rw [hM, ← h.maps, hu.count_eq, count_cons_of_ne (by simp)]
  · rw [hF]
    by_cases hp : p = q
    · subst hp
      rw [if_pos rfl] at hcount
      rw [update_self]
      omega
    · rw [if_neg (Ne.symm hp)] at hcount
      rw [update_of_ne hp]
      omega
  · rw [hU] at hs
    have h0 := h.noFetch hc hs
    by_cases hp : p = q
    · subst hp
      rw [if_pos rfl] at hcount
      omega
    · rw [hF, update_of_ne hp]
      exact h0
  · rw [hU, hM]
    exact h.noMap

theorem Excl.addMap (h : Excl c s p) (hu : s'.inUse ~ .map q :: s.inUse)
    (hU : s'.runningUpdates = s.runningUpdates) (hM : s'.runningMaps = insert q s.runningMaps)
    (hF : s'.runningFetches = s.runningFetches) (hq : q ∉ s.runningMaps)
    (hr : c.mapCollectionId = c.updateCollectionId → s.runningUpdates q = none) :
    Excl c s' p where
  updates := by rw [hu.count_eq, hU, count_cons_of_ne (by simp), h.updates]
  maps := by
    rw [hu.count_eq, hM, count_cons, h.maps]
    by_cases hp : p = q
    · subst hp
      simp [hq]
    · simp [hp, Ne.symm hp]
  fetches := by rw [hu.count_eq, hF, count_cons_of_ne (by simp), h.fetches]
  noFetch := by rw [hU, hF]; exact h.noFetch
  noMap := by
    intro hc hs hp
    rw [hU] at hs
    rw [hM] at hp
    rcases Finset.mem_insert.mp hp with rfl | hp
    · rw [hr hc] at hs
      cases hs
    · exact h.noMap hc hs hp

theorem Excl.dropMap (h : Excl c s p) (hu : s.inUse ~ .map q :: s'.inUse)
    (hU : s'.runningUpdates = s.runningUpdates) (hM : s'.runningMaps = s.runningMaps.erase q)
    (hF : s'.runningFetches = s.runningFetches) : Excl c s' p := by
  have hcount : s.inUse.count (.map p) = s'.inUse.count (.map p) + if q = p then 1 else 0 := by
    rw [hu.count_eq, count_cons]
    simp
  have hm := h.maps
  refine ⟨?_, ?_, ?_, ?_, fun hc hs hp => ?_⟩
  · rw [hU, ← h.updates, hu.count_eq, count_cons_of_ne (by simp)]
  · rw [hM]
    by_cases hp : p = q
    · subst hp
      rw [if_pos rfl] at hcount
      have : ¬ p ∈ s.runningMaps.erase p := Finset.notMem_erase _ _
      rw [if_neg this]
      split_ifs at hm <;> omega
    · rw [if_neg (Ne.symm hp)] at hcount
      simp only [Finset.mem_erase, ne_eq, hp, not_false_eq_true, true_and]
      omega
  · rw [hF, h.fetches, hu.count_eq, count_cons_of_ne (by simp)]
  · rw [hU, hF]
    exact h.noFetch
  · rw [hU] at hs
    rw [hM] at hp
    exact h.noMap hc hs (Finset.mem_of_mem_erase hp)

theorem Excl.addUpdate (h : Excl c s p) {u : Int} (hu : s'.inUse ~ .update q :: s.inUse)
    (hU : s'.runningUpdates = update s.runningUpdates q (some u))
    (hM : s'.runningMaps = s.runningMaps) (hF : s'.runningFetches = s.runningFetches)
    (hr : s.runningUpdates q = none)
    (hf : c.fetchCollectionId = c.updateCollectionId → s.runningFetches q = 0)
    (hm : c.mapCollectionId = c.updateCollectionId → q ∉ s.runningMaps) : Excl c s' p := by
  have hcount : s'.inUse.count (.update p) =
      s.inUse.count (.update p) + if q = p then 1 else 0 := by
    rw [hu.count_eq, count_cons]
    simp
  have hup := h.updates
  by_cases hp : p = q
  · subst hp
    rw [if_pos rfl] at hcount
    rw [hr] at hup
    refine ⟨?_, ?_, ?_, fun hc _ => ?_, fun hc _ => ?_⟩
    · simp only [hU, update_self, Option.isSome_some, if_true]
      simpa [hup] using hcount
    · rw [hu.count_eq, hM, count_cons_of_ne (by simp), h.maps]
    · rw [hu.count_eq, hF, count_cons_of_ne (by simp), h.fetches]
    · rw [hF]
      exact hf hc
    · rw [hM]
      exact hm hc
  · rw [if_neg (Ne.symm hp)] at hcount
    have hUp : s'.runningUpdates p = s.runningUpdates p := by rw [hU, update_of_ne hp]
    refine ⟨?_, ?_, ?_, ?_, ?_⟩
    · rw [hUp, ← hup]
      omega
    · rw [hu.count_eq, hM, count_cons_of_ne (by simp), h.maps]
    · rw [hu.count_eq, hF, count_cons_of_ne (by simp), h.fetches]
    · rw [hUp, hF]
      exact h.noFetch
    · rw [hUp, hM]
      exact h.noMap

theorem Excl.dropUpdate (h : Excl c s p) (hu : s.inUse ~ .update q :: s'.inUse)
    (hU : s'.runningUpdates = update s.runningUpdates q none)
    (hM : s'.runningMaps = s.runningMaps) (hF : s'.runningFetches = s.runningFetches) :
    Excl c s' p := by
  have hcount : s.inUse.count (.update p) =
      s'.inUse.count (.update p) + if q = p then 1 else 0 := by
    rw [hu.count_eq, count_cons]
    simp
  have hup := h.updates
  have hmaps : s'.inUse.count (.map p) = if p ∈ s'.runningMaps then 1 else 0 := by
    rw [hM, ← h.maps, hu.count_eq, count_cons_of_ne (by simp)]
  have hfetches : s'.runningFetches p = s'.inUse.count (.fetch p) := by
    rw [hF, h.fetches, hu.count_eq, count_cons_of_ne (by simp)]
  by_cases hp : p = q
  · subst hp
    rw [if_pos rfl] at hcount
    have hUp : s'.runningUpdates p = none := by rw [hU, update_self]
    refine ⟨?_, hmaps, hfetches, ?_, ?_⟩
    · rw [hUp]
      simp only [Option.isSome_none, Bool.false_eq_true, if_false]
      split_ifs at hup <;> omega
    · simp [hUp]
    · simp [hUp]
  · rw [if_neg (Ne.symm hp)] at hcount
    have hUp : s'.runningUpdates p = s.runningUpdates p := by rw [hU, update_of_ne hp]
    refine ⟨?_, hmaps, hfetches, ?_, ?_⟩
    · rw [hUp, ← hup]
      omega
    · rw [hUp, hF]
      exact h.noFetch
    · rw [hUp, hM]
      exact h.noMap

/-- A completion or a task of an update is about a partition whose update is booked. -/
theorem Excl.running (h : Excl c s p) (hu : .update p ∈ s.inUse) : (s.runningUpdates p).isSome := by
  have hpos : 0 < s.inUse.count (.update p) := count_pos_iff.mpr hu
  have hup := h.updates
  split_ifs at hup with hs
  · exact hs
  · omega

end Changes

theorem excl_head {s s₁ : PlanController β} {a : Action β}
    (h : ∀ p, Excl c s p) (hh : Head c s a s₁) (p : Int) : Excl c s₁ p := by
  cases hh with
  | noop => exact h p
  | bufferJoin m hk => exact { h p with }
  | ignoreJoin m hk hj => exact { h p with }
  | pendJoin m hk hj hc hv => exact { h p with }
  | waitJoin m hk hj hv => exact { h p with }
  | runFetch f hp hf hr => exact (h p).addFetch (inUse_runFetchRequest s f) rfl rfl rfl hr
  | bufferFetch f hk => exact { h p with }
  | waitFetch f hk hf hc hr => exact { h p with }
  | releaseFetch i q hi => exact (h p).dropFetch (inUse_takeGrant s hi) rfl rfl rfl
  | updateVersion v hlt hv => exact { h p with }
  | abortBegin i t hi hs => exact (h p).perm (inUse_mapDone s hi false) rfl rfl rfl
  | beginMap i t hi => exact (h p).perm (inUse_setMap s hi rfl) rfl rfl rfl
  | abortEnd i t hi hs => exact (h p).perm (inUse_mapDone s hi false) rfl rfl rfl
  | endMap i t hi hs => exact (h p).perm (inUse_mapDone s hi true) rfl rfl rfl
  | execJoin i m hi => exact (h p).perm (inUse_taskDone s hi rfl) rfl rfl rfl
  | execCheckpoint i q iter hi => exact (h p).perm (inUse_taskDone s hi rfl) rfl rfl rfl
  | execFetch i f v hi => exact (h p).perm (inUse_taskDone s hi rfl) rfl rfl rfl
  | finishMapGone i q b hi hk => exact (h p).dropMap (inUse_takeMsg s hi) rfl rfl rfl
  | finishMap i q b hi hk hc => exact (h p).dropMap (inUse_takeMsg s hi) rfl rfl rfl
  | finishMapJoin i q b hi hk hc => exact (h p).dropMap (inUse_takeMsg s hi) rfl rfl rfl
  | trackJoin i q v ups hi hn => exact (h p).dropUpdate (inUse_takeMsg s hi) rfl rfl rfl
  | complete i q v ups hi hn => exact (h p).dropUpdate (inUse_takeMsg s hi) rfl rfl rfl
  | completeCheckpoint i q v ups hi hn =>
    -- the update gives the partition to the checkpoint, so nothing can have come between
    have hrun := (h q).running (mem_inUse_of_msg hi)
    have hrel : Excl c (completeVersion (PlanController.trackJoin (takeMsg s i) q v ups) q v) p :=
      (h p).dropUpdate (inUse_takeMsg s hi) rfl rfl rfl
    exact hrel.addUpdate (inUse_submit _ _) rfl rfl rfl
      (by simp [completeVersion, PlanController.trackJoin, releaseUpdate])
      (fun hc => (h q).noFetch hc hrun) (fun hc => (h q).noMap hc hrun)
  | finishFetch i q u hi => exact (h p).dropFetch (inUse_takeMsg s hi) rfl rfl rfl
  | finishCheckpoint i q hi hr => exact (h p).dropUpdate (inUse_takeMsg s hi) rfl rfl rfl

theorem isMapRunnable_spec (h : isMapRunnable c s p = true) :
    p ∉ s.runningMaps ∧
    (c.mapCollectionId = c.updateCollectionId → s.runningUpdates p = none) ∧
    s.mapVersions.val p ≠ c.expectedNumIter ∧
    s.mapVersions.val p ≤ s.minVersion + c.staleness := by
  unfold isMapRunnable at h
  split_ifs at h with hm hu hs hn
  refine ⟨hm, fun hc => ?_, hn, by simpa using h⟩
  by_contra hne
  exact hu ⟨hc, Option.isSome_iff_ne_none.mpr hne⟩

theorem not_blocked_spec (h : ¬ Blocked c s p) :
    s.runningUpdates p = none ∧
    (c.fetchCollectionId = c.updateCollectionId → s.runningFetches p ≤ 0) ∧
    (c.mapCollectionId = c.updateCollectionId → p ∉ s.runningMaps) := by
  unfold Blocked at h
  push Not at h
  exact ⟨Option.not_isSome_iff_eq_none.mp h.1, h.2.1, h.2.2⟩

theorem excl_tail (hl : Placed s) (h : ∀ p, Excl c s p) (ht : Tail c s s') (p : Int) :
    Excl c s' p := by
  cases ht with
  | launch q hr hq =>
    obtain ⟨hm, hu, -, -⟩ := isMapRunnable_spec hr
    exact (h p).addMap (inUse_submitMap s _) rfl rfl rfl hm hu
  | popDuplicate q m rest hq hb hj => exact { h p with }
  | popFetch q f rest hq hb =>
    have hfq := hl.waiting q (.fetch f) (hq ▸ mem_cons_self)
    have hfree : s.runningUpdates f.partId = none := by
      rw [show f.partId = q from hfq]
      exact (not_blocked_spec hb).1
    exact (h p).addFetch (inUse_runFetchRequest (s.setWaiting q rest) f) rfl rfl rfl
      fun _ => hfree
  | popJoin q m rest hq hb hj hr =>
    have hmq : m.partId = q := hl.waiting q (.join m) (hq ▸ mem_cons_self)
    subst hmq
    obtain ⟨-, hf, hm⟩ := not_blocked_spec hb
    refine (h p).addUpdate (inUse_submit (s.setWaiting m.partId rest) (.join m)) rfl rfl rfl hr
      (fun hc => ?_) hm
    have hle := hf hc
    have hcount := (h m.partId).fetches
    show s.runningFetches m.partId = 0
    omega

/-- The books agree with what runs, in every reachable state. -/
theorem excl_stable :
    Stable c (fun s : PlanController β => Layout c s ∧ ∀ p, Excl c s p) :=
  layout_stable.and excl_setup (fun _ _ _ _ h hh => excl_head h hh)
    fun _ _ hl h ht => excl_tail hl.placed h ht

/-! ## Checks that cannot fail -/

theorem runSomeMaps_ne_error (ps : List Int) (s : PlanController β) (e : Check)
    (hps : ∀ p ∈ ps, p ∈ c.partitions c.mapCollectionId) : runSomeMaps c ps s ≠ .error e := by
  induction ps generalizing s with
  | nil => simp [runSomeMaps]
  | cons p ps ih =>
    have hp := hps p mem_cons_self
    have hps' := fun q hq => hps q (mem_cons_of_mem _ hq)
    unfold runSomeMaps
    split
    · next hr =>
      intro he
      rcases bind_eq_error.mp he with he | ⟨_, -, he⟩
      · exact (check_eq_error.mp he).1 hp
      · rcases bind_eq_error.mp he with he | ⟨s₁, -, he⟩
        · unfold runMap at he
          rcases bind_eq_error.mp he with he | ⟨_, -, he⟩
          · exact (check_eq_error.mp he).1 (isMapRunnable_spec hr).1
          · cases he
        · exact ih s₁ hps' he
    · exact ih s hps'

theorem tryRunSomeMaps_ne_error (hl : Layout c s) (e : Check) : tryRunSomeMaps c s ≠ .error e := by
  unfold tryRunSomeMaps
  split
  · simp
  · exact runSomeMaps_ne_error _ s e fun p hp => hl.mapKeys ▸ hp

theorem isJoinedBefore_error {m : JoinMeta β} (h : isJoinedBefore s m = .error e) :
    e ∈ Check.ofJoin := by
  unfold isJoinedBefore at h
  split at h
  · cases h
    simp [Check.ofJoin]
  · rcases bind_eq_error.mp h with h | ⟨_, -, h⟩
    · rw [← (check_eq_error.mp h).2]
      simp [Check.ofJoin]
    · cases h
  · cases h

theorem runWaitingJoins_error (p : Int) (q : List (VersionedJoinMeta β)) (s : PlanController β)
    (hq : ∀ x ∈ q, x.partId = p) (h : runWaitingJoins c p q s = .error e) : e ∈ Check.ofJoin := by
  induction q generalizing s with
  | nil => cases h
  | cons x rest ih =>
    unfold runWaitingJoins at h
    split at h
    · cases h
    · next hb =>
      cases x with
      | fetch f => cases h
      | join m =>
        simp only [runJoin] at h
        rcases bind_eq_error.mp h with h | ⟨joined, -, h⟩
        · exact isJoinedBefore_error h
        · cases joined with
          | true => exact ih _ (fun x hx => hq x (mem_cons_of_mem _ hx)) h
          | false =>
            -- an unblocked partition has no running update, so RunJoin may enter its own
            have hm : m.partId = p := hq (.join m) mem_cons_self
            simp only [Bool.false_eq_true, if_false, startJoin] at h
            rcases bind_eq_error.mp h with h | ⟨_, -, h⟩
            · refine absurd ?_ (check_eq_error.mp h).1
              rw [hm]
              exact (not_blocked_spec hb).1
            · cases h

theorem tryRunWaitingJoins_error (hl : Layout c s) (h : tryRunWaitingJoins c s p = .error e) :
    e ∈ Check.ofJoin :=
  runWaitingJoins_error p _ s (fun x hx => (hl.waiting p x hx).1) h

theorem layout_tails (hl : Layout c s) (h : Relation.ReflTransGen (Tail c) s s') : Layout c s' := by
  induction h with
  | refl => exact hl
  | tail _ ht ih => exact layout_tail ih ht

/-- `TryRunWaitingJoins` and then `TryRunSomeMaps`. -/
theorem joins_then_maps_error {s : PlanController β} {p : Int} {e : Check} (hl : Layout c s)
    (h : (do
      let s ← tryRunWaitingJoins c s p
      tryRunSomeMaps c s) = .error e) : e ∈ Check.ofJoin := by
  rcases bind_eq_error.mp h with h | ⟨s₁, h₁, h⟩
  · exact tryRunWaitingJoins_error hl h
  · exact absurd h (tryRunSomeMaps_ne_error (layout_tails hl (tryRunWaitingJoins_tail c h₁)) e)

theorem receiveJoin_error {m : JoinMeta β} (hl : Layout c s) (h : receiveJoin c s m = .error e) :
    e ∈ Check.ofJoin := by
  unfold receiveJoin at h
  split at h
  · cases h
  · next hk =>
    rcases bind_eq_error.mp h with h | ⟨joined, -, h⟩
    · exact isJoinedBefore_error h
    · cases joined with
      | true => cases h
      | false =>
        simp only [Bool.false_eq_true, if_false] at h
        split at h
        · cases h
        · have hr : Layout c { s with received := s.received ++ [m] } := { hl with }
          exact tryRunWaitingJoins_error (hr.pushWaiting (e := .join m)
            (hl.updateKeys ▸ not_not.mp hk) fun f hf => by simp at hf) h

theorem receiveFetchRequest_error {f : FetchReq} (h : receiveFetchRequest c s f = .error e) :
    e ∈ (Action.kFetchRequest f : Action β).checks := by
  unfold receiveFetchRequest at h
  rcases bind_eq_error.mp h with h | ⟨_, -, h⟩
  · rw [← (check_eq_error.mp h).2]
    simp [Action.checks]
  rcases bind_eq_error.mp h with h | ⟨_, -, h⟩
  · rw [← (check_eq_error.mp h).2]
    simp [Action.checks]
  rcases bind_eq_error.mp h with h | ⟨_, -, h⟩
  · rw [← (check_eq_error.mp h).2]
    simp [Action.checks]
  rcases bind_eq_error.mp h with h | ⟨_, -, h⟩
  · rw [← (check_eq_error.mp h).2]
    simp [Action.checks]
  split_ifs at h <;> cases h

theorem updateVersion_error {v : Int} (hl : Layout c s) (h : updateVersion c s v = .error e) :
    (e = .updateVersionLt ∧ ¬ v < c.expectedNumIter) ∨
      (e = .updateVersionNext ∧ ¬ v = s.minVersion + 1) := by
  unfold updateVersion at h
  rcases bind_eq_error.mp h with h | ⟨_, -, h⟩
  · obtain ⟨hlt, rfl⟩ := check_eq_error.mp h
    exact .inl ⟨rfl, hlt⟩
  rcases bind_eq_error.mp h with h | ⟨_, -, h⟩
  · obtain ⟨hv, rfl⟩ := check_eq_error.mp h
    exact .inr ⟨rfl, hv⟩
  have hv : Layout c (setMinVersion s v) := { hl with }
  exact absurd h (tryRunSomeMaps_ne_error hv e)

theorem execFetch_error {i : Nat} (hl : Layout c s) (h : execFetch c s i = .error e) :
    e ∈ (Action.execFetch i : Action β).checks := by
  unfold execFetch at h
  split at h
  · cases h
  · next m hi =>
    rcases bind_eq_error.mp h with h | ⟨_, -, h⟩
    · exact absurd (hl.inUse _ (mem_inUse_of_task hi)) (check_eq_error.mp h).1
    · cases h
  · next p iter hi =>
    rcases bind_eq_error.mp h with h | ⟨_, -, h⟩
    · exact absurd (hl.inUse _ (mem_inUse_of_task hi)) (check_eq_error.mp h).1
    · cases h
  · rcases bind_eq_error.mp h with h | ⟨_, -, h⟩
    · rw [← (check_eq_error.mp h).2]
      simp [Action.checks]
    · cases h

theorem finishMap_error {s : PlanController β} {p : Int} {e : Check} (hl : Layout c s)
    (h : finishMap c s p = .error e) : e ∈ Check.ofJoin := by
  unfold finishMap at h
  simp only at h
  split at h
  · cases h
  · next hk =>
    have hl₁ := (hl.mapDone p).countMap (not_not.mp hk)
    split at h
    · exact joins_then_maps_error (hl₁.releasePending _ _) h
    · exact absurd h (tryRunSomeMaps_ne_error hl₁ e)

theorem finishJoin_error {p v : Int} {ups : List Int} (hl : Layout c s)
    (hp : p ∈ c.partitions c.updateCollectionId) (h : finishJoin c s p v ups = .error e) :
    e ∈ Check.ofJoin := by
  have hl₁ : Layout c (PlanController.trackJoin s p v ups) := { hl with }
  unfold finishJoin at h
  simp only at h
  split at h
  · rcases bind_eq_error.mp h with h | ⟨⟨b, s₂⟩, h₂, h⟩
    · unfold tryCheckpoint at h
      split at h
      · rcases bind_eq_error.mp h with h | ⟨_, -, h⟩
        · refine absurd ?_ (check_eq_error.mp h).1
          simp [completeVersion, PlanController.trackJoin, releaseUpdate]
        · cases h
      · cases h
    · rcases tryCheckpoint_eq_ok h₂ with ⟨rfl, rfl⟩ | ⟨rfl, rfl⟩
      · cases h
      · have hl₂ : Layout c (reportJoin c (completeVersion
            (PlanController.trackJoin s p v ups) p v) p) := { hl₁.completeVersion v hp with }
        exact tryRunWaitingJoins_error hl₂ h
  · exact tryRunWaitingJoins_error hl₁ h

theorem finishCheckpoint_error {s : PlanController β} {p : Int} {e : Check} (hl : Layout c s)
    (hr : (s.runningUpdates p).isSome) (h : finishCheckpoint c s p = .error e) :
    e ∈ Check.ofJoin := by
  unfold finishCheckpoint at h
  rcases bind_eq_error.mp h with h | ⟨_, -, h⟩
  · exact absurd hr (check_eq_error.mp h).1
  · have hl₁ : Layout c (reportJoin c (releaseUpdate s p) p) := { hl with }
    exact joins_then_maps_error hl₁ h

/-- A step fails only at a check of what the controller was sent. -/
theorem step_error {a : Action β} (hl : Layout c s) (hx : ∀ p, Excl c s p)
    (h : step c s a = .error e) : e ∈ a.checks := by
  cases a with
  | kStart => exact absurd h (tryRunSomeMaps_ne_error hl e)
  | kReceiveJoin m => exact receiveJoin_error hl h
  | kFetchRequest f => exact receiveFetchRequest_error h
  | releaseFetch i =>
    simp only [step] at h
    split at h
    · cases h
    · next p hi =>
      have hl₁ : Layout c (addRunningFetch (takeGrant s i) p (-1)) := { hl.takeGrant hi with }
      exact tryRunWaitingJoins_error hl₁ h
  | kUpdateVersion v =>
    rcases updateVersion_error hl h with ⟨rfl, -⟩ | ⟨rfl, -⟩ <;> simp [Action.checks]
  | beginMap i => cases h
  | endMap i => cases h
  | execFetch i => exact execFetch_error hl h
  | process i =>
    simp only [step] at h
    split at h
    · cases h
    · next x hi =>
      cases x with
      | kFinishMap p b => exact finishMap_error (hl.takeMsg hi) h
      | kFinishJoin p v ups =>
        exact finishJoin_error (hl.takeMsg hi) (hl.inUse _ (mem_inUse_of_msg hi)) h
      | kFinishFetch p u =>
        have hl₁ : Layout c (addRunningFetch (takeMsg s i) p (-1)) := { hl.takeMsg hi with }
        exact tryRunWaitingJoins_error hl₁ h
      | kFinishCheckpoint p =>
        exact finishCheckpoint_error (hl.takeMsg hi) ((hx p).running (mem_inUse_of_msg hi)) h

/-! ## Access exclusion -/

/-- **Access exclusion.**  After any sequence of events a partition has at most one update or
checkpoint, which excludes the fetches and the maps of the same collection; the fetch counter
counts the fetches that are not released; and no run stops at a `CHECK` of `RunMap`, `RunJoin`,
`TryCheckpoint` or `FinishCheckpoint`. -/
theorem access_exclusion (c : Spec) (as : List (Action β)) :
    (∀ s, run (step c) (setup c) as = .ok s → ∀ p,
      s.inUse.count (.update p) ≤ 1 ∧
      (c.fetchCollectionId = c.updateCollectionId →
        ¬ (Use.update p ∈ s.inUse ∧ Use.fetch p ∈ s.inUse) ∧
        s.runningFetches p = s.inUse.count (.fetch p)) ∧
      (c.mapCollectionId = c.updateCollectionId →
        ¬ (Use.update p ∈ s.inUse ∧ Use.map p ∈ s.inUse))) ∧
    (∀ e, run (step c) (setup c) as = .error e →
      e ∉ [Check.runMap, .runJoin, .runJoinHas, .tryCheckpoint, .tryCheckpointHas,
        .finishCheckpoint]) := by
  constructor
  · intro s hs p
    obtain ⟨-, hx⟩ := excl_stable.reachIf (reach_of_run as hs)
    have hx := hx p
    refine ⟨?_, fun hc => ⟨?_, hx.fetches⟩, fun hc => ?_⟩
    · rw [hx.updates]
      split_ifs <;> omega
    · rintro ⟨hu, hf⟩
      have h0 := hx.noFetch hc (hx.running hu)
      have hpos : 0 < s.inUse.count (.fetch p) := count_pos_iff.mpr hf
      have hcount := hx.fetches
      omega
    · rintro ⟨hu, hm⟩
      have hno := hx.noMap hc (hx.running hu)
      have hpos : 0 < s.inUse.count (.map p) := count_pos_iff.mpr hm
      rw [hx.maps, if_neg hno] at hpos
      omega
  · intro e he
    obtain ⟨s, a, hs, hstep⟩ := error_of_run as he
    obtain ⟨hl, hx⟩ := excl_stable.reachIf hs
    have hmsg := step_error hl hx hstep
    intro hmem
    simp only [mem_cons, not_mem_nil, or_false] at hmem
    rcases hmem with rfl | rfl | rfl | rfl | rfl | rfl <;> cases a <;>
      simp [Action.checks, Check.ofJoin] at hmsg

/-- A plan that maps, updates and fetches one collection with the one partition `0`. -/
def onePart (n : Nat) (staleness iters : Int) : Spec where
  planId := 0
  nodeId := 0
  mapCollectionId := 1
  updateCollectionId := 1
  fetchCollectionId := 1
  numUpstreamPart := n
  staleness := staleness
  expectedNumIter := iters
  checkpointInterval := 0
  partitions := fun cid => if cid = 1 then [0] else []

/-- Map output that arrives early, a fetch that arrives during the update. -/
def onePartEvents : List (Action Unit) :=
  [.kStart, .beginMap 0, .kReceiveJoin ⟨0, 0, .one 0, false, ()⟩, .endMap 0, .process 0,
    .kFetchRequest ⟨0, 1, 0, -1, 0, true, getFetcherQid 0, getControllerActorQid 0⟩,
    .execFetch 0, .process 0]

theorem access_exclusion_onePart :
    ∃ s, run (step (onePart 1 0 2)) (setup (onePart 1 0 2)) onePartEvents = .ok s ∧
      s.inUse = [.fetch 0] ∧ s.runningFetches 0 = s.inUse.count (.fetch 0) :=
  ⟨_, rfl, by decide, (((access_exclusion (onePart 1 0 2) onePartEvents).1 _ rfl 0).2.1 rfl).2⟩

end PlanController

end Tangram
