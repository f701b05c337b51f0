import Tangram.Worker.Layout

/-!
# The tracker is made of whole batches

`IsJoinedBefore` wants all the upstream partitions of a batch in the tracker, or
none.  Let `F (p, v)` be the sets of partitions that the batches for version `v`
of `p` list.  What a controller holds comes from there, and so the tracker is a
union of such sets, whatever the controller does (`traced_step`).  If no two of
the sets overlap without being equal, the `CHECK_EQ` passes in every handler
(`step_ne_mixed`).
-/

/-- A union of sets of a family contains every set of it or misses it, if different sets of the
family are disjoint. -/
theorem Set.PairwiseDisjoint.subset_or_disjoint {α : Type} {F : Set (Finset α)}
    (hF : F.PairwiseDisjoint id) {t b : Finset α} (ht : ∀ u ∈ t, ∃ c ∈ F, u ∈ c ∧ c ⊆ t)
    (hb : b ∈ F) : b ⊆ t ∨ Disjoint b t := by
  by_cases hd : Disjoint b t
  · exact .inr hd
  · left
    obtain ⟨u, hub, hut⟩ := Finset.not_disjoint_iff.mp hd
    obtain ⟨c, hc, huc, hct⟩ := ht u hut
    have hbc : b = c := hF.elim hb hc (Finset.not_disjoint_iff.mpr ⟨u, hub, huc⟩)
    exact hbc ▸ hct

namespace Tangram

open StepRun Relation List Function

variable {β : Type}

/-- The message is one of the batches of `F`. -/
def JoinMeta.Listed (F : Int × Int → Set (Finset Int)) (m : JoinMeta β) : Prop :=
  m.ids.toFinset ∈ F (m.partId, m.version)

namespace PlanController

variable {c : Spec} {F F' : Int × Int → Set (Finset Int)} {s s' : PlanController β} {m : JoinMeta β}
  {a : Action β} {e : VersionedJoinMeta β}

/-- What a controller has received and applied comes in batches of `F`. -/
structure Traced (F : Int × Int → Set (Finset Int)) (s : PlanController β) : Prop where
  tracker : ∀ p v, ∀ u ∈ s.updateTracker p v, ∃ b ∈ F (p, v), u ∈ b ∧ b ⊆ s.updateTracker p v
  waiting : ∀ p m, .join m ∈ s.waitingUpdates p → m.Listed F
  pending : ∀ p v, ∀ m ∈ s.pendingUpdates p v, m.Listed F
  running : ∀ m, .join m ∈ s.fetchExecutor → m.Listed F
  finished : ∀ p v ups, .kFinishJoin p v ups ∈ s.workQueue → ups.toFinset ∈ F (p, v)

theorem traced_setup : Traced F (setup c : PlanController β) where
  tracker _ _ _ h := by simp [setup] at h
  waiting _ _ h := by simp [setup] at h
  pending _ _ _ h := by simp [setup] at h
  running _ h := by simp [setup] at h
  finished _ _ _ h := by simp [setup] at h

theorem Traced.mono (h : Traced F s) (hF : ∀ key, F key ⊆ F' key) : Traced F' s where
  tracker p v u hu := by
    obtain ⟨b, hb, hub, hbt⟩ := h.tracker p v u hu
    exact ⟨b, hF _ hb, hub, hbt⟩
  waiting p m hm := hF _ (h.waiting p m hm)
  pending p v m hm := hF _ (h.pending p v m hm)
  running m hm := hF _ (h.running m hm)
  finished p v ups he := hF _ (h.finished p v ups he)

/-! ## Changes -/

theorem Traced.setWaiting (h : Traced F s) {p : Int} {q : List (VersionedJoinMeta β)}
    (hq : ∀ m, .join m ∈ q → m.Listed F) : Traced F (s.setWaiting p q) := by
  refine { h with waiting := fun p' m hm => ?_ }
  rcases mem_setWaiting hm with ⟨-, hm⟩ | hm
  · exact hq m hm
  · exact h.waiting p' m hm

theorem Traced.pushWaiting (h : Traced F s) (p : Int) (he : ∀ m, e = .join m → m.Listed F) :
    Traced F (s.pushWaiting p e) := by
  refine { h with waiting := fun p' m hm => ?_ }
  rcases mem_pushWaiting hm with ⟨-, hm⟩ | hm
  · exact he m hm.symm
  · exact h.waiting p' m hm

theorem Traced.popWaiting (h : Traced F s) {p : Int} {rest : List (VersionedJoinMeta β)}
    (hq : s.waitingUpdates p = e :: rest) : Traced F (s.setWaiting p rest) :=
  { h with waiting := fun p' m hm => h.waiting p' m (mem_popWaiting hq hm) }

theorem Traced.pushPending (h : Traced F s) (hm : m.Listed F) : Traced F (s.pushPending m) := by
  refine { h with pending := fun p v m' hm' => ?_ }
  rcases mem_pushPending hm' with ⟨-, rfl⟩ | hm'
  · exact hm
  · exact h.pending p v m' hm'

theorem Traced.releasePending (h : Traced F s) (p v : Int) : Traced F (releasePending s p v) := by
  refine { h with
    waiting := fun q m hm => ?_
    pending := fun _ _ _ hm => h.pending _ _ _ (mem_pending_of_releasePending hm) }
  rcases mem_waiting_of_releasePending hm with ⟨-, m', hm', he⟩ | hm
  · cases he
    exact h.pending p v m hm'
  · exact h.waiting q m hm

theorem Traced.runFetchRequest (h : Traced F s) (f : FetchReq) :
    Traced F (runFetchRequest c s f) := by
  refine { h with running := fun m hm => ?_ }
  simp only [PlanController.runFetchRequest] at hm
  split at hm
  · exact h.running m hm
  · simp only [mem_append, mem_singleton, reduceCtorEq, or_false] at hm
    exact h.running m hm

theorem Traced.takeMsg (h : Traced F s) (i : Nat) : Traced F (takeMsg s i) :=
  { h with finished := fun p v ups he => h.finished p v ups (mem_of_mem_eraseIdx he) }

/-- A completion enters the work queue. -/
theorem Traced.pushMsg (h : Traced F s) {e : Completion}
    (he : ∀ p v ups, e = .kFinishJoin p v ups → ups.toFinset ∈ F (p, v)) :
    Traced F { s with workQueue := s.workQueue ++ [e] } := by
  refine { h with finished := fun p v ups hmem => ?_ }
  rcases mem_append.mp hmem with hmem | hmem
  · exact h.finished p v ups hmem
  · exact he p v ups (mem_singleton.mp hmem).symm

theorem Traced.taskDone (h : Traced F s) (i : Nat) {e : Completion}
    (he : ∀ p v ups, e = .kFinishJoin p v ups → ups.toFinset ∈ F (p, v)) :
    Traced F (taskDone s i e) :=
  { h.pushMsg he with running := fun m hm => h.running m (mem_of_mem_eraseIdx hm) }

/-- A whole batch is entered. -/
theorem Traced.trackJoin (h : Traced F s) {p v : Int} {ups : List Int}
    (hups : ups.toFinset ∈ F (p, v)) : Traced F (trackJoin s p v ups) := by
  refine { h with tracker := fun q w u hu => ?_ }
  simp only [PlanController.trackJoin] at hu ⊢
  by_cases hq : q = p
  · subst hq
    by_cases hw : w = v
    · subst hw
      simp only [update_self] at hu ⊢
      rcases Finset.mem_union.mp hu with hu | hu
      · obtain ⟨b, hb, hub, hbt⟩ := h.tracker q w u hu
        exact ⟨b, hb, hub, hbt.trans Finset.subset_union_left⟩
      · exact ⟨_, hups, hu, Finset.subset_union_right⟩
    · simp only [update_self, update_of_ne hw] at hu ⊢
      exact h.tracker q w u hu
  · simp only [update_of_ne hq] at hu ⊢
    exact h.tracker q w u hu

/-- The tracker of a version is dropped as a whole. -/
theorem Traced.completeVersion (h : Traced F s) (p v : Int) : Traced F (completeVersion s p v) := by
  refine { h with tracker := fun q w u hu => ?_ }
  simp only [PlanController.completeVersion] at hu ⊢
  by_cases hq : q = p
  · subst hq
    by_cases hw : w = v
    · subst hw
      simp only [update_self] at hu
      exact absurd hu (Finset.notMem_empty u)
    · simp only [update_self, update_of_ne hw] at hu ⊢
      exact h.tracker q w u hu
  · simp only [update_of_ne hq] at hu ⊢
    exact h.tracker q w u hu

theorem Traced.setMinVersion (h : Traced F s) (v : Int) : Traced F (setMinVersion s v) := by
  refine { h with tracker := fun q w u hu => ?_ }
  simp only [PlanController.setMinVersion] at hu ⊢
  by_cases hw : w = v - 1
  · rw [if_pos hw] at hu
    exact absurd hu (Finset.notMem_empty u)
  · rw [if_neg hw] at hu ⊢
    exact h.tracker q w u hu

/-! ## One step -/

theorem traced_head (h : Traced F s) (ha : ∀ m, a = .kReceiveJoin m → m.Listed F)
    (hh : Head c s a s') : Traced F s' := by
  cases hh with
  | pendJoin m hk hj hc hv =>
    have h₁ : Traced F { s with received := s.received ++ [m] } := { h with }
    exact h₁.pushPending (ha m rfl)
  | waitJoin m hk hj hv =>
    have h₁ : Traced F { s with received := s.received ++ [m] } := { h with }
    refine h₁.pushWaiting _ fun m' hm' => ?_
    cases hm'
    exact ha m rfl
  | runFetch f hp hf hr => exact h.runFetchRequest f
  | waitFetch f hk hf hc hr => exact h.pushWaiting _ (by simp)
  | updateVersion v hlt hv => exact h.setMinVersion v
  | abortBegin i t hi hs | abortEnd i t hi hs =>
    have h₁ := h.pushMsg (e := .kFinishMap t.partId false) (by simp)
    exact { h₁ with }
  | endMap i t hi hs =>
    have h₁ := h.pushMsg (e := .kFinishMap t.partId true) (by simp)
    exact { h₁ with }
  | execJoin i m hi =>
    have hm := h.running m (mem_of_getElem? hi)
    have h₁ := h.taskDone i (e := .kFinishJoin m.partId m.version m.ids) fun p v ups he => by
      cases he
      exact hm
    exact { h₁ with }
  | execCheckpoint i p iter hi =>
    have h₁ := h.taskDone i (e := .kFinishCheckpoint p) (by simp)
    exact { h₁ with }
  | execFetch i f v hi =>
    have h₁ := h.taskDone i (e := .kFinishFetch f.partId f.upstreamPartId) (by simp)
    exact { h₁ with }
  | finishMapGone i p b hi hk => exact { h.takeMsg i with }
  | finishMap i p b hi hk hc => exact { h.takeMsg i with }
  | finishMapJoin i p b hi hk hc =>
    have h₁ : Traced F (countMap c (mapDone (PlanController.takeMsg s i) p) p) :=
      { h.takeMsg i with }
    exact h₁.releasePending _ _
  | trackJoin i p v ups hi hn =>
    exact (h.takeMsg i).trackJoin (h.finished p v ups (mem_of_getElem? hi))
  | complete i p v ups hi hn =>
    have h₁ := (h.takeMsg i).trackJoin (h.finished p v ups (mem_of_getElem? hi))
    exact { h₁.completeVersion p v with }
  | completeCheckpoint i p v ups hi hn =>
    have h₁ := (h.takeMsg i).trackJoin (h.finished p v ups (mem_of_getElem? hi))
    refine { h₁.completeVersion p v with running := fun m hm => ?_ }
    simp only [startCheckpoint, mem_append, mem_singleton, reduceCtorEq,
      or_false] at hm
    exact h₁.running m hm
  | finishFetch i p u hi => exact { h.takeMsg i with }
  | finishCheckpoint i p hi hr => exact { h.takeMsg i with }
  | _ => exact { h with }

theorem traced_tail (h : Traced F s) (ht : Tail c s s') : Traced F s' := by
  cases ht with
  | launch p hr hp => exact { h with }
  | popDuplicate p m rest hq hb hj => exact { h.popWaiting hq with }
  | popFetch p f rest hq hb => exact (h.popWaiting hq).runFetchRequest f
  | popJoin p m rest hq hb hj hr =>
    refine { h.popWaiting hq with running := fun m' hm' => ?_ }
    rcases mem_append.mp hm' with hm' | hm'
    · exact h.running m' hm'
    · cases mem_singleton.mp hm'
      exact h.waiting p m (hq ▸ mem_cons_self)

theorem traced_tails (h : Traced F s) (ht : ReflTransGen (Tail c) s s') : Traced F s' := by
  induction ht with
  | refl => exact h
  | tail _ ht ih => exact traced_tail ih ht

/-- **The tracker stays a union of batches**, as long as what arrives is one. -/
theorem traced_step (h : Traced F s) (ha : ∀ m, a = .kReceiveJoin m → m.Listed F)
    (hstep : step c s a = .ok s') : Traced F s' := by
  obtain ⟨s₁, hh, ht⟩ := step_head_tail hstep
  exact traced_tails (traced_head h ha hh) ht

/-! ## The check of `IsJoinedBefore` -/

/-- A batch is in the tracker or has nothing in it. -/
theorem Traced.all_or_none (h : Traced F s) (hm : m.Listed F)
    (hF : (F (m.partId, m.version)).PairwiseDisjoint id) :
    (∀ u ∈ m.ids, u ∈ s.updateTracker m.partId m.version) ∨
      ∀ u ∈ m.ids, u ∉ s.updateTracker m.partId m.version := by
  rcases hF.subset_or_disjoint (h.tracker m.partId m.version) hm with hsub | hdis
  · exact .inl fun u hu => hsub (mem_toFinset.mpr hu)
  · exact .inr fun u hu => Finset.disjoint_left.mp hdis (mem_toFinset.mpr hu)

theorem isJoinedBefore_ne_mixed (h : Traced F s) (hm : m.Listed F)
    (hF : ∀ key, (F key).PairwiseDisjoint id) : isJoinedBefore s m ≠ .error .joinedBeforeMixed := by
  intro he
  have hall := h.all_or_none hm (hF _)
  unfold isJoinedBefore at he
  split at he
  · cases he
  · next u us hids =>
    have hmem : ∀ w ∈ u :: us, w ∈ m.ids := by
      intro w hw
      rw [JoinMeta.ids, hids]
      exact hw
    rcases bind_eq_error.mp he with he | ⟨_, -, he⟩
    · apply (check_eq_error.mp he).1
      intro w hw
      have hu := hmem u mem_cons_self
      have hw := hmem w (mem_cons_of_mem _ hw)
      rcases hall with hall | hall
      · rw [decide_eq_true (hall u hu), decide_eq_true (hall w hw)]
      · rw [decide_eq_false (hall u hu), decide_eq_false (hall w hw)]
    · cases he
  · cases he

theorem runSomeMaps_ne_mixed (ps : List Int) (s : PlanController β) :
    runSomeMaps c ps s ≠ .error .joinedBeforeMixed := by
  induction ps generalizing s with
  | nil => simp [runSomeMaps]
  | cons p ps ih =>
    unfold runSomeMaps
    split
    · intro he
      rcases bind_eq_error.mp he with he | ⟨_, -, he⟩
      · cases (check_eq_error.mp he).2
      · rcases bind_eq_error.mp he with he | ⟨s₁, -, he⟩
        · rcases bind_eq_error.mp he with he | ⟨_, -, he⟩
          · cases (check_eq_error.mp he).2
          · cases he
        · exact ih s₁ he
    · exact ih s

theorem tryRunSomeMaps_ne_mixed (s : PlanController β) :
    tryRunSomeMaps c s ≠ .error .joinedBeforeMixed := by
  unfold tryRunSomeMaps
  split
  · simp
  · exact runSomeMaps_ne_mixed _ s

section NoMixed

variable (hF : ∀ key, (F key).PairwiseDisjoint id)
include hF

theorem runWaitingJoins_ne_mixed (p : Int) (q : List (VersionedJoinMeta β))
    (hq : ∀ m, .join m ∈ q → m.Listed F) (h : Traced F s) :
    runWaitingJoins c p q s ≠ .error .joinedBeforeMixed := by
  induction q generalizing s with
  | nil => simp [runWaitingJoins]
  | cons e rest ih =>
    have hrest : ∀ m, .join m ∈ rest → m.Listed F := fun m hm => hq m (mem_cons_of_mem _ hm)
    have hpop : Traced F (s.setWaiting p rest) := h.setWaiting hrest
    unfold runWaitingJoins
    split
    · simp
    · cases e with
      | fetch f => simp
      | join m =>
        intro he
        simp only [runJoin] at he
        rcases bind_eq_error.mp he with he | ⟨joined, -, he⟩
        · exact isJoinedBefore_ne_mixed hpop (hq m mem_cons_self) hF he
        · cases joined with
          | true => exact ih hrest (s := (s.setWaiting p rest).ignore m) { hpop with } he
          | false =>
            rcases bind_eq_error.mp he with he | ⟨_, -, he⟩
            · cases (check_eq_error.mp he).2
            · cases he

theorem tryRunWaitingJoins_ne_mixed (h : Traced F s) (p : Int) :
    tryRunWaitingJoins c s p ≠ .error .joinedBeforeMixed :=
  runWaitingJoins_ne_mixed hF p _ (h.waiting p) h

theorem joins_then_maps_ne_mixed (h : Traced F s) (p : Int) :
    (do
      let s ← tryRunWaitingJoins c s p
      tryRunSomeMaps c s) ≠ .error .joinedBeforeMixed := by
  intro he
  rcases bind_eq_error.mp he with he | ⟨s₁, -, he⟩
  · exact tryRunWaitingJoins_ne_mixed hF h p he
  · exact tryRunSomeMaps_ne_mixed s₁ he

theorem receiveJoin_ne_mixed (h : Traced F s) (hm : m.Listed F) :
    receiveJoin c s m ≠ .error .joinedBeforeMixed := by
  intro he
  unfold receiveJoin at he
  split at he
  · cases he
  · rcases bind_eq_error.mp he with he | ⟨joined, -, he⟩
    · exact isJoinedBefore_ne_mixed h hm hF he
    · cases joined with
      | true => cases he
      | false =>
        simp only [Bool.false_eq_true, if_false] at he
        split at he
        · cases he
        · have h₁ : Traced F { s with received := s.received ++ [m] } := { h with }
          refine tryRunWaitingJoins_ne_mixed hF (h₁.pushWaiting m.partId fun m' hm' => ?_) _ he
          cases hm'
          exact hm

theorem finishMap_ne_mixed (h : Traced F s) (p : Int) :
    finishMap c s p ≠ .error .joinedBeforeMixed := by
  intro he
  unfold finishMap at he
  simp only at he
  split at he
  · cases he
  · have h₁ : Traced F (countMap c (mapDone s p) p) := { h with }
    split at he
    · exact joins_then_maps_ne_mixed hF (h₁.releasePending _ _) p he
    · exact tryRunSomeMaps_ne_mixed _ he

theorem finishJoin_ne_mixed (h : Traced F s) {p v : Int} {ups : List Int}
    (hups : ups.toFinset ∈ F (p, v)) : finishJoin c s p v ups ≠ .error .joinedBeforeMixed := by
  intro he
  have h₁ := h.trackJoin hups
  unfold finishJoin at he
  simp only at he
  split at he
  · rcases bind_eq_error.mp he with he | ⟨⟨b, s₂⟩, h₂, he⟩
    · unfold tryCheckpoint at he
      split at he
      · rcases bind_eq_error.mp he with he | ⟨_, -, he⟩
        · cases (check_eq_error.mp he).2
        · cases he
      · cases he
    · rcases tryCheckpoint_eq_ok h₂ with ⟨rfl, rfl⟩ | ⟨rfl, rfl⟩
      · cases he
      · have h₃ : Traced F (reportJoin c (completeVersion
            (PlanController.trackJoin s p v ups) p v) p) := { h₁.completeVersion p v with }
        exact tryRunWaitingJoins_ne_mixed hF h₃ p he
  · exact tryRunWaitingJoins_ne_mixed hF h₁ p he

theorem finishCheckpoint_ne_mixed (h : Traced F s) (p : Int) :
    finishCheckpoint c s p ≠ .error .joinedBeforeMixed := by
  intro he
  rcases bind_eq_error.mp he with he | ⟨_, -, he⟩
  · cases (check_eq_error.mp he).2
  · have h₁ : Traced F (reportJoin c (releaseUpdate s p) p) := { h with }
    exact joins_then_maps_ne_mixed hF h₁ p he

omit hF in
theorem updateVersion_ne_mixed (v : Int) : updateVersion c s v ≠ .error .joinedBeforeMixed := by
  intro he
  rcases bind_eq_error.mp he with he | ⟨_, -, he⟩
  · cases (check_eq_error.mp he).2
  · rcases bind_eq_error.mp he with he | ⟨_, -, he⟩
    · cases (check_eq_error.mp he).2
    · exact tryRunSomeMaps_ne_mixed _ he

omit hF in
theorem receiveFetchRequest_ne_mixed (f : FetchReq) :
    receiveFetchRequest c s f ≠ .error .joinedBeforeMixed := by
  intro he
  unfold receiveFetchRequest at he
  iterate 4
    rcases bind_eq_error.mp he with he | ⟨_, -, he⟩
    · cases (check_eq_error.mp he).2
  split_ifs at he <;> cases he

omit hF in
theorem execFetch_ne_mixed (i : Nat) : execFetch c s i ≠ .error .joinedBeforeMixed := by
  intro he
  unfold execFetch at he
  split at he
  · cases he
  all_goals
    rcases bind_eq_error.mp he with he | ⟨_, -, he⟩
    · cases (check_eq_error.mp he).2
    · cases he

/-- **Nothing is half-joined** if the batches are equal or disjoint. -/
theorem step_ne_mixed (h : Traced F s) (ha : ∀ m, a = .kReceiveJoin m → m.Listed F) :
    step c s a ≠ .error .joinedBeforeMixed := by
  cases a with
  | kStart => exact tryRunSomeMaps_ne_mixed s
  | kReceiveJoin m => exact receiveJoin_ne_mixed hF h (ha m rfl)
  | kFetchRequest f => exact receiveFetchRequest_ne_mixed f
  | releaseFetch i =>
    simp only [step]
    split
    · simp
    · next p hi =>
      exact tryRunWaitingJoins_ne_mixed (s := addRunningFetch (takeGrant s i) p (-1)) hF
        { h with } p
  | kUpdateVersion v => exact updateVersion_ne_mixed v
  | beginMap i => simp [step]
  | endMap i => simp [step]
  | execFetch i => exact execFetch_ne_mixed i
  | process i =>
    simp only [step]
    split
    · simp
    · next e hi =>
      have hmem := mem_of_getElem? hi
      have h₁ := h.takeMsg i
      cases e with
      | kFinishMap p b => exact finishMap_ne_mixed hF h₁ p
      | kFinishJoin p v ups => exact finishJoin_ne_mixed hF h₁ (h.finished p v ups hmem)
      | kFinishFetch p u =>
        exact tryRunWaitingJoins_ne_mixed (s := addRunningFetch (takeMsg s i) p (-1)) hF
          { h₁ with } p
      | kFinishCheckpoint p => exact finishCheckpoint_ne_mixed hF h₁ p

end NoMixed

end PlanController

end Tangram
