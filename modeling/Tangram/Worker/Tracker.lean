import Tangram.Worker.Queues

/-!
# The update tracker and duplicate suppression

`update_tracker_` records which upstream outputs are applied.  An output is
applied exactly if it is recorded: in the tracker, dropped from it, or in a
`kFinishJoin` that is still to be processed (`recorded_iff_applied`).

A duplicate is suppressed only as long as its record stands.  `FinishJoin` clears
the record of a version it completes and `UpdateVersion` erases one, so a copy that
is delivered later, or that is queued meanwhile, is applied again
(`duplicate_applied_twice`).  Where no such copy exists, every output is applied at
most once (`applied_at_most_once`).
-/

namespace Tangram

open StepRun Relation List Function
open scoped List

namespace PlanController

variable {β : Type} {c : Spec} {s s₁ s' : PlanController β} {a : Action β} {m : JoinMeta β}
  {i : Nat}

/-! ## Applied outputs are recorded -/

/-- The output of `u` for version `v` of `p` is in the tracker, was in it, or is about to be. -/
def Recorded (s : PlanController β) (p v u : Int) : Prop :=
  u ∈ s.updateTracker p v ∨ u ∈ s.forgotten p v ∨
    ∃ ups, .kFinishJoin p v ups ∈ s.workQueue ∧ u ∈ ups

/-- The completion records `u` for version `v` of `p`. -/
def Completion.Records (p v u : Int) (e : Completion) : Prop :=
  ∃ ups, e = .kFinishJoin p v ups ∧ u ∈ ups

section Recorded

variable {s : PlanController β} {p v u : Int}

theorem recorded_iff_of_mem {s' : PlanController β} {e : Completion}
    (hw : ∀ x, x ∈ s'.workQueue ↔ x ∈ s.workQueue ∨ x = e)
    (ht : s'.updateTracker = s.updateTracker) (hf : s'.forgotten = s.forgotten) :
    Recorded s' p v u ↔ Recorded s p v u ∨ Completion.Records p v u e := by
  unfold Recorded Completion.Records
  rw [ht, hf]
  constructor
  · rintro (h | h | ⟨ups, hmem, hu⟩)
    · exact .inl (.inl h)
    · exact .inl (.inr (.inl h))
    · rcases (hw _).mp hmem with hmem | heq
      · exact .inl (.inr (.inr ⟨ups, hmem, hu⟩))
      · exact .inr ⟨ups, heq.symm, hu⟩
  · rintro ((h | h | ⟨ups, hmem, hu⟩) | ⟨ups, rfl, hu⟩)
    · exact .inl h
    · exact .inr (.inl h)
    · exact .inr (.inr ⟨ups, (hw _).mpr (.inl hmem), hu⟩)
    · exact .inr (.inr ⟨ups, (hw _).mpr (.inr rfl), hu⟩)

theorem recorded_pushMsg (e : Completion) :
    Recorded { s with workQueue := s.workQueue ++ [e] } p v u ↔
      Recorded s p v u ∨ Completion.Records p v u e :=
  recorded_iff_of_mem (by simp) rfl rfl

theorem recorded_takeMsg {e : Completion} (hi : s.workQueue[i]? = some e) :
    Recorded s p v u ↔ Recorded (takeMsg s i) p v u ∨ Completion.Records p v u e := by
  refine recorded_iff_of_mem (fun x => ?_) rfl rfl
  rw [(perm_cons_of_getElem? hi).mem_iff, mem_cons]
  exact or_comm

theorem recorded_trackJoin (q w : Int) (ups : List Int) :
    Recorded (trackJoin s q w ups) p v u ↔
      Recorded s p v u ∨ Completion.Records p v u (.kFinishJoin q w ups) := by
  unfold Recorded Completion.Records
  by_cases hp : p = q
  · subst hp
    by_cases hv : v = w
    · subst hv
      simp only [trackJoin, releaseUpdate, update_self, Finset.mem_union,
        mem_toFinset, Completion.kFinishJoin.injEq, true_and]
      constructor
      · rintro ((h | h) | h)
        · exact .inl (.inl h)
        · exact .inr ⟨ups, rfl, h⟩
        · exact .inl (.inr h)
      · rintro ((h | h) | ⟨_, rfl, h⟩)
        · exact .inl (.inl h)
        · exact .inr h
        · exact .inl (.inr h)
    · simp [trackJoin, releaseUpdate, update_of_ne hv, Ne.symm hv]
  · simp [trackJoin, releaseUpdate, update_of_ne hp, Ne.symm hp]

theorem recorded_completeVersion (q w : Int) :
    Recorded (completeVersion s q w) p v u ↔ Recorded s p v u := by
  unfold Recorded
  by_cases hp : p = q
  · subst hp
    by_cases hv : v = w
    · subst hv
      simp only [completeVersion, update_self, Finset.notMem_empty, false_or,
        Finset.mem_union]
      exact or_assoc.trans or_left_comm
    · simp [completeVersion, update_of_ne hv]
  · simp [completeVersion, update_of_ne hp]

theorem recorded_setMinVersion (w : Int) :
    Recorded (setMinVersion s w) p v u ↔ Recorded s p v u := by
  unfold Recorded
  by_cases hv : v = w - 1
  · subst hv
    simp only [setMinVersion, if_true, Finset.notMem_empty, false_or, Finset.mem_union]
    exact or_assoc.trans or_left_comm
  · simp [setMinVersion, if_neg hv]

/-- Processing a `kFinishJoin` moves the record from the work queue to the tracker. -/
theorem recorded_finishJoin {q w : Int} {ups : List Int}
    (hi : s.workQueue[i]? = some (.kFinishJoin q w ups)) :
    Recorded (trackJoin (takeMsg s i) q w ups) p v u ↔ Recorded s p v u :=
  (recorded_trackJoin q w ups).trans (recorded_takeMsg hi).symm

end Recorded

/-- How a step changes what is applied and what is recorded: not at all, or by the join task
that it executes. -/
theorem applied_head (hh : Head c s a s₁) :
    (s₁.applied = s.applied ∧ ∀ p v u, Recorded s₁ p v u ↔ Recorded s p v u) ∨
    ∃ i m, s.fetchExecutor[i]? = some (.join m) ∧ s₁.applied = s.applied ++ [m] ∧
      s₁.fetchExecutor = s.fetchExecutor.eraseIdx i ∧
      ∀ p v u, Recorded s₁ p v u ↔ Recorded s p v u ∨ m.Covers p v u := by
  -- a message that is no kFinishJoin comes and goes without a trace
  have hpush : ∀ e, (∀ p v ups, e ≠ .kFinishJoin p v ups) → ∀ p v u,
      Recorded { s with workQueue := s.workQueue ++ [e] } p v u ↔ Recorded s p v u := by
    intro e he p v u
    rw [recorded_pushMsg]
    exact or_iff_left fun ⟨ups, h, _⟩ => he p v ups h
  have htake : ∀ i e, s.workQueue[i]? = some e → (∀ p v ups, e ≠ .kFinishJoin p v ups) → ∀ p v u,
      Recorded (takeMsg s i) p v u ↔ Recorded s p v u := by
    intro i e hi he p v u
    rw [recorded_takeMsg hi]
    exact (or_iff_left fun ⟨ups, h, _⟩ => he p v ups h).symm
  cases hh with
  | updateVersion v hlt hv => exact .inl ⟨rfl, fun _ _ _ => recorded_setMinVersion v⟩
  | abortBegin i t hi hs => exact .inl ⟨rfl, hpush _ (by simp)⟩
  | abortEnd i t hi hs => exact .inl ⟨rfl, hpush _ (by simp)⟩
  | endMap i t hi hs => exact .inl ⟨rfl, hpush _ (by simp)⟩
  | execJoin i m hi =>
    refine .inr ⟨i, m, hi, rfl, rfl, fun p v u => ?_⟩
    refine (recorded_pushMsg (s := s) (.kFinishJoin m.partId m.version m.ids)).trans
      (or_congr_right ?_)
    simp only [Completion.Records, Completion.kFinishJoin.injEq, JoinMeta.Covers, JoinMeta.At]
    constructor
    · rintro ⟨_, ⟨rfl, rfl, rfl⟩, hu⟩
      exact ⟨⟨rfl, rfl⟩, hu⟩
    · rintro ⟨⟨rfl, rfl⟩, hu⟩
      exact ⟨_, ⟨rfl, rfl, rfl⟩, hu⟩
  | execCheckpoint i q iter hi => exact .inl ⟨rfl, hpush _ (by simp)⟩
  | execFetch i f w hi => exact .inl ⟨rfl, hpush _ (by simp)⟩
  | finishMapGone i q b hi hk => exact .inl ⟨rfl, htake i _ hi (by simp)⟩
  | finishMap i q b hi hk hc => exact .inl ⟨rfl, htake i _ hi (by simp)⟩
  | finishMapJoin i q b hi hk hc => exact .inl ⟨rfl, htake i _ hi (by simp)⟩
  | trackJoin i q w ups hi hn => exact .inl ⟨rfl, fun _ _ _ => recorded_finishJoin hi⟩
  | complete i q w ups hi hn | completeCheckpoint i q w ups hi hn =>
    exact .inl ⟨rfl, fun _ _ _ => (recorded_completeVersion q w).trans (recorded_finishJoin hi)⟩
  | finishFetch i q u hi => exact .inl ⟨rfl, htake i _ hi (by simp)⟩
  | finishCheckpoint i q hi hr => exact .inl ⟨rfl, htake i _ hi (by simp)⟩
  | _ => exact .inl ⟨rfl, fun _ _ _ => Iff.rfl⟩

theorem recorded_tail (ht : Tail c s s') :
    s'.applied = s.applied ∧ ∀ p v u, Recorded s' p v u ↔ Recorded s p v u := by
  cases ht <;> exact ⟨rfl, fun _ _ _ => Iff.rfl⟩

/-- What is applied is recorded, and nothing else is. -/
def Tracked (s : PlanController β) : Prop :=
  ∀ p v u, Recorded s p v u ↔ ∃ m ∈ s.applied, m.Covers p v u

theorem tracked_stable : Stable c (Tracked : PlanController β → Prop) where
  start p v u := by simp [Recorded, setup]
  head s a s₁ h hh p v u := by
    rcases applied_head hh with ⟨ha, hr⟩ | ⟨i, m, -, ha, -, hr⟩
    · rw [hr, ha]
      exact h p v u
    · rw [hr, ha, h p v u]
      constructor
      · rintro (⟨m', hm', hc⟩ | hc)
        · exact ⟨m', mem_append_left _ hm', hc⟩
        · exact ⟨m, mem_append_right _ mem_cons_self, hc⟩
      · rintro ⟨m', hm', hc⟩
        rcases mem_append.mp hm' with hm' | hm'
        · exact .inl ⟨m', hm', hc⟩
        · rw [mem_singleton.mp hm'] at hc
          exact .inr hc
  tail s s' h ht p v u := by
    obtain ⟨ha, hr⟩ := recorded_tail ht
    rw [hr, ha]
    exact h p v u

/-- What holds in every reachable state of every run. -/
structure Sound (c : Spec) (s : PlanController β) : Prop where
  layout : Layout c s
  excl : ∀ p, Excl c s p
  pendingOk : PendingOk c s
  kept : ∀ p v r, TestsAt p v r → Kept s p v r
  tracked : Tracked s

theorem sound_stable : Stable c (Sound c : PlanController β → Prop) where
  start := ⟨layout_setup, excl_setup, pendingOk_stable.start, kept_stable.start.2,
    tracked_stable.start⟩
  head s a s₁ h hh :=
    ⟨layout_head h.layout hh, excl_head h.excl hh, pendingOk_head h.pendingOk hh,
      fun p v r hr => kept_head h.layout.placed hr (h.kept p v r hr) hh,
      tracked_stable.head s a s₁ h.tracked hh⟩
  tail s s' h ht :=
    ⟨layout_tail h.layout ht, excl_tail h.layout.placed h.excl ht, pendingOk_tail h.pendingOk ht,
      fun p v r hr => kept_tail h.layout.placed hr (h.kept p v r hr) ht,
      tracked_stable.tail s s' h.tracked ht⟩

theorem not_mem_tracker_of_not_joined (h : isJoinedBefore s m = .ok false) :
    ∀ u ∈ m.ids, u ∉ s.updateTracker m.partId m.version := by
  unfold isJoinedBefore at h
  intro u hu
  split at h
  · cases h
  · next w us hm =>
    obtain ⟨_, hall, h⟩ := bind_eq_ok.mp h
    have hall := check_eq_ok.mp hall
    have hw : ¬ w ∈ s.updateTracker m.partId m.version := by simpa using Except.ok.inj h
    rw [JoinMeta.ids, hm] at hu
    rcases mem_cons.mp hu with rfl | hu
    · exact hw
    · have := hall u hu
      simpa [hw] using this
  · next w hm =>
    rw [JoinMeta.ids, hm] at hu
    rw [mem_singleton.mp hu]
    simpa using Except.ok.inj h

/-- Two join tasks never share a partition. -/
theorem running_ne_of_getElem? {m m' : JoinMeta β} (hx : Excl c s m.partId)
    (hi : s.fetchExecutor[i]? = some (.join m))
    (hm' : m' ∈ (s.fetchExecutor.eraseIdx i).filterMap FetchTask.join?) : m'.partId ≠ m.partId := by
  intro heq
  obtain ⟨t, ht, htm⟩ := mem_filterMap.mp hm'
  have htask : t = .join m' := by
    cases t with
    | join m => cases htm; rfl
    | checkpoint _ _ => cases htm
    | fetch _ _ => cases htm
  have hmem : Use.update m.partId ∈
      inUse { s with fetchExecutor := s.fetchExecutor.eraseIdx i } := by
    refine mem_append_left _ (mem_map.mpr ⟨t, ht, ?_⟩)
    rw [htask, ← heq]
    rfl
  have hcount := (inUse_eraseTask s hi).count_eq (.update m.partId)
  have hpos := count_pos_iff.mpr hmem
  have hone := hx.updates
  simp only [FetchTask.use, count_cons_self] at hcount
  split_ifs at hone <;> omega

/-! ## At most once, while the records stand -/

/-- The messages of version `v` of `p` that are not started yet. -/
def queued (s : PlanController β) (p v : Int) : List (JoinMeta β) :=
  s.pendingUpdates p v ++ (s.waitingJoins p).filter (·.At p v)

/-- No copy of an output is delivered after its record was dropped, and no copy is queued when
its record is dropped. -/
def NoStaleCopy (c : Spec) (s : PlanController β) : Action β → Prop
  | .kReceiveJoin m => ∀ u ∈ m.ids, u ∉ s.forgotten m.partId m.version
  | .kUpdateVersion n => ∀ p ∈ c.partitions c.updateCollectionId,
      ∀ m ∈ s.queued p (n - 1), ∀ u ∈ m.ids, u ∉ s.updateTracker p (n - 1)
  | .process i =>
    match s.workQueue[i]? with
    | some (.kFinishJoin p v ups) =>
      (s.updateTracker p v ∪ ups.toFinset).card = c.numUpstreamPart →
        ∀ m ∈ s.queued p v, ∀ u ∈ m.ids, u ∉ s.updateTracker p v ∪ ups.toFinset
    | _ => True
  | _ => True

instance (s : PlanController β) (a : Action β) : Decidable (NoStaleCopy c s a) := by
  unfold NoStaleCopy
  split
  · infer_instance
  · infer_instance
  · split <;> infer_instance
  · infer_instance

theorem mem_queued {p v : Int} :
    m ∈ s.queued p v ↔ m ∈ s.pendingUpdates p v ∨ (m ∈ s.waitingJoins p ∧ m.At p v) := by
  simp [queued]

theorem mem_waitingJoins {p : Int} : m ∈ s.waitingJoins p ↔ .join m ∈ s.waitingUpdates p := by
  unfold waitingJoins
  rw [mem_filterMap]
  constructor
  · rintro ⟨e, he, hm⟩
    cases e with
    | join m' => cases hm; exact he
    | fetch f => cases hm
  · intro h
    exact ⟨.join m, h, rfl⟩

section Queued

variable {s : PlanController β} {p v : Int} {m m' : JoinMeta β} {e : VersionedJoinMeta β}

theorem mem_queued_pushPending (h : m' ∈ (s.pushPending m).queued p v) :
    m' ∈ s.queued p v ∨ m' = m ∧ m.At p v := by
  rcases mem_queued.mp h with h | h
  · by_cases hp : p = m.partId
    · subst hp
      by_cases hv : v = m.version
      · subst hv
        simp only [pushPending, update_self, mem_append, mem_singleton] at h
        rcases h with h | rfl
        · exact .inl (mem_queued.mpr (.inl h))
        · exact .inr ⟨rfl, rfl, rfl⟩
      · simp only [pushPending, update_self, update_of_ne hv] at h
        exact .inl (mem_queued.mpr (.inl h))
    · simp only [pushPending, update_of_ne hp] at h
      exact .inl (mem_queued.mpr (.inl h))
  · exact .inl (mem_queued.mpr (.inr h))

theorem mem_queued_setWaiting {q : Int} {l : List (VersionedJoinMeta β)}
    (h : m' ∈ (s.setWaiting q l).queued p v) :
    m' ∈ s.queued p v ∨ p = q ∧ .join m' ∈ l ∧ m'.At p v := by
  rcases mem_queued.mp h with h | ⟨h, hat⟩
  · exact .inl (mem_queued.mpr (.inl h))
  · by_cases hp : p = q
    · subst hp
      have hl := mem_waitingJoins.mp h
      simp only [setWaiting, update_self] at hl
      exact .inr ⟨rfl, hl, hat⟩
    · have hl := mem_waitingJoins.mp h
      simp only [setWaiting, update_of_ne hp] at hl
      exact .inl (mem_queued.mpr (.inr ⟨mem_waitingJoins.mpr hl, hat⟩))

theorem mem_queued_pushWaiting {q : Int} (h : m' ∈ (s.pushWaiting q e).queued p v) :
    m' ∈ s.queued p v ∨ e = .join m' ∧ m'.At p v := by
  rcases mem_queued_setWaiting h with h | ⟨rfl, hl, hat⟩
  · exact .inl h
  · rcases mem_append.mp hl with hl | hl
    · exact .inl (mem_queued.mpr (.inr ⟨mem_waitingJoins.mpr hl, hat⟩))
    · exact .inr ⟨(mem_singleton.mp hl).symm, hat⟩

theorem mem_queued_popWaiting {q : Int} {rest : List (VersionedJoinMeta β)}
    (hq : s.waitingUpdates q = e :: rest) (h : m' ∈ (s.setWaiting q rest).queued p v) :
    m' ∈ s.queued p v := by
  rcases mem_queued_setWaiting h with h | ⟨rfl, hl, hat⟩
  · exact h
  · refine mem_queued.mpr (.inr ⟨mem_waitingJoins.mpr ?_, hat⟩)
    rw [hq]
    exact mem_cons_of_mem _ hl

theorem mem_queued_releasePending (hl : Layout c s) {q w : Int}
    (h : m' ∈ (releasePending s q w).queued p v) : m' ∈ s.queued p v := by
  rcases mem_queued.mp h with h | ⟨h, hat⟩
  · exact mem_queued.mpr (.inl (mem_pending_of_releasePending h))
  · have hmem := mem_waitingJoins.mp h
    by_cases hp : p = q
    · subst hp
      simp only [releasePending, update_self, mem_append, mem_map,
        VersionedJoinMeta.join.injEq, exists_eq_right] at hmem
      rcases hmem with hmem | hmem
      · exact mem_queued.mpr (.inr ⟨mem_waitingJoins.mpr hmem, hat⟩)
      · -- a released message is of the version it was pending for
        have hw : w = v := (hl.pending p w m' hmem).2.1.symm.trans hat.2
        exact mem_queued.mpr (.inl (hw ▸ hmem))
    · simp only [releasePending, update_of_ne hp] at hmem
      exact mem_queued.mpr (.inr ⟨mem_waitingJoins.mpr hmem, hat⟩)

theorem queued_at (hl : Layout c s) (h : m ∈ s.queued p v) :
    m.At p v ∧ p ∈ c.partitions c.updateCollectionId := by
  rcases mem_queued.mp h with h | ⟨h, hat⟩
  · obtain ⟨hp, hv, hloc⟩ := hl.pending p v m h
    exact ⟨⟨hp, hv⟩, hloc⟩
  · exact ⟨hat, (hl.waiting p _ (mem_waitingJoins.mp h)).2⟩

end Queued

/-- Nothing that is queued has a record that was dropped. -/
def QueuedFresh (s : PlanController β) : Prop :=
  ∀ p v, ∀ m ∈ s.queued p v, ∀ u ∈ m.ids, u ∉ s.forgotten p v

theorem forgotten_completeVersion {s : PlanController β} {p v q w u : Int}
    (h : u ∈ (completeVersion s q w).forgotten p v) :
    u ∈ s.forgotten p v ∨ p = q ∧ v = w ∧ u ∈ s.updateTracker p v := by
  by_cases hp : p = q
  · subst hp
    by_cases hv : v = w
    · subst hv
      simp only [completeVersion, update_self, Finset.mem_union] at h
      exact h.imp_right fun h => ⟨rfl, rfl, h⟩
    · simp only [completeVersion, update_self, update_of_ne hv] at h
      exact .inl h
  · simp only [completeVersion, update_of_ne hp] at h
    exact .inl h

theorem queuedFresh_complete {q w : Int} {ups : List Int} (h : QueuedFresh s)
    (ha : NoStaleCopy c s (.process i)) (hi : s.workQueue[i]? = some (.kFinishJoin q w ups))
    (hn : (s.updateTracker q w ∪ ups.toFinset).card = c.numUpstreamPart) :
    QueuedFresh (completeVersion (trackJoin (takeMsg s i) q w ups) q w) := by
  intro p v m hm u hu hf
  rcases forgotten_completeVersion hf with hf | ⟨rfl, rfl, hf⟩
  · exact h p v m hm u hu hf
  · rw [trackJoin_tracker] at hf
    simp only [NoStaleCopy, hi] at ha
    exact ha hn m hm u hu hf

theorem queuedFresh_head (hl : Layout c s) (h : QueuedFresh s) (ha : NoStaleCopy c s a)
    (hh : Head c s a s₁) : QueuedFresh s₁ := by
  cases hh with
  | pendJoin m hk hj hc hv =>
    intro p v m' hm' u hu
    rcases mem_queued_pushPending (s := s) hm' with hm' | ⟨rfl, rfl, rfl⟩
    · exact h p v m' hm' u hu
    · exact ha u hu
  | waitJoin m hk hj hv =>
    intro p v m' hm' u hu
    rcases mem_queued_pushWaiting (s := s) hm' with hm' | ⟨hm, rfl, rfl⟩
    · exact h p v m' hm' u hu
    · cases hm
      exact ha u hu
  | waitFetch f hk hf hc hr =>
    intro p v m' hm' u hu
    rcases mem_queued_pushWaiting hm' with hm' | ⟨hm, -⟩
    · exact h p v m' hm' u hu
    · cases hm
  | updateVersion n hlt hv =>
    intro p v m hm u hu hf
    have hfresh := h p v m hm u hu
    simp only [setMinVersion] at hf
    split_ifs at hf with hn
    · rcases Finset.mem_union.mp hf with hf | hf
      · exact hfresh hf
      · subst hn
        exact ha p (queued_at hl hm).2 m hm u hu hf
    · exact hfresh hf
  | finishMapJoin i q b hi hk hc =>
    intro p v m hm u hu
    have hl₁ := ((hl.takeMsg hi).mapDone q).countMap hk
    have hm := mem_queued_releasePending hl₁ hm
    exact h p v m hm u hu
  | complete i q w ups hi hn =>
    have hq := queuedFresh_complete h ha hi hn
    exact hq
  | completeCheckpoint i q w ups hi hn =>
    have hq := queuedFresh_complete h ha hi hn
    exact hq
  | _ => exact h

theorem queuedFresh_tail (h : QueuedFresh s) (ht : Tail c s s') : QueuedFresh s' := by
  cases ht with
  | launch q hr hp => exact h
  | popDuplicate q m rest hq hb hj =>
    exact fun p v m' hm' => h p v m' (mem_queued_popWaiting hq hm')
  | popFetch q f rest hq hb => exact fun p v m' hm' => h p v m' (mem_queued_popWaiting hq hm')
  | popJoin q m rest hq hb hj hr =>
    exact fun p v m' hm' => h p v m' (mem_queued_popWaiting hq hm')

/-- What is being applied has no record yet. -/
def RunningFresh (s : PlanController β) : Prop :=
  ∀ m ∈ s.runningJoins, ∀ u ∈ m.ids, ¬ Recorded s m.partId m.version u

theorem runningJoins_head (hh : Head c s a s₁) (hm : m ∈ s₁.runningJoins) : m ∈ s.runningJoins := by
  cases hh with
  | runFetch f hp hf hr => exact runningJoins_runFetchRequest (c := c) (s := s) f ▸ hm
  | execJoin i m' hi => exact ((eraseIdx_sublist _ i).filterMap _).subset hm
  | execCheckpoint i q iter hi => exact ((eraseIdx_sublist _ i).filterMap _).subset hm
  | execFetch i f w hi => exact ((eraseIdx_sublist _ i).filterMap _).subset hm
  | completeCheckpoint i q w ups hi hn =>
    have hm : m ∈ (s.fetchExecutor ++ [_]).filterMap FetchTask.join? := hm
    rw [filterMap_append] at hm
    rcases mem_append.mp hm with hm | hm
    · exact hm
    · cases hm
  | _ => exact hm

theorem runningFresh_head (hx : ∀ p, Excl c s p) (h : RunningFresh s) (hh : Head c s a s₁) :
    RunningFresh s₁ := by
  intro m hm u hu
  have hold := h m (runningJoins_head hh hm) u hu
  rcases applied_head hh with ⟨-, hr⟩ | ⟨i, m₁, hi, -, hf, hr⟩
  · rw [hr]
    exact hold
  · rw [hr]
    rintro (hrec | ⟨⟨hp, -⟩, -⟩)
    · exact hold hrec
    · unfold runningJoins at hm
      rw [hf] at hm
      exact running_ne_of_getElem? (hx m₁.partId) hi hm hp.symm

theorem runningFresh_tail (hl : Layout c s) (hx : ∀ p, Excl c s p) (hq : QueuedFresh s)
    (h : RunningFresh s) (ht : Tail c s s') : RunningFresh s' := by
  cases ht with
  | launch q hr hp => exact h
  | popDuplicate q m rest hw hb hj => exact h
  | popFetch q f rest hw hb =>
    intro m hm
    exact h m (runningJoins_runFetchRequest (c := c) (s := s.setWaiting q rest) f ▸ hm)
  | popJoin q m rest hw hb hj hr =>
    intro m' hm' u hu
    have hm' : m' ∈ (s.fetchExecutor ++ [FetchTask.join m]).filterMap FetchTask.join? := hm'
    rw [filterMap_append] at hm'
    rcases mem_append.mp hm' with hm' | hm'
    · exact h m' hm' u hu
    · have hmm : m' = m := mem_singleton.mp hm'
      subst hmm
      have hmem : VersionedJoinMeta.join m' ∈ s.waitingUpdates q := hw ▸ mem_cons_self
      have hmq : m'.partId = q := (hl.waiting q _ hmem).1
      subst hmq
      have hqd : m' ∈ s.queued m'.partId m'.version :=
        mem_queued.mpr (.inr ⟨mem_waitingJoins.mpr hmem, rfl, rfl⟩)
      rintro (hrec | hrec | ⟨ups, hrec, -⟩)
      · exact not_mem_tracker_of_not_joined hj u hu hrec
      · exact hq _ _ m' hqd u hu hrec
      · -- its partition would be occupied
        have hrec : Completion.kFinishJoin m'.partId m'.version ups ∈ s.workQueue := hrec
        obtain ⟨i, hi⟩ := mem_iff_getElem?.mp hrec
        have hrun := (hx m'.partId).running (mem_inUse_of_msg hi)
        rw [hr] at hrun
        cases hrun

/-- Every output is applied once at most. -/
def AppliedOnce (s : PlanController β) : Prop :=
  ∀ p v u, s.applied.countP (·.Covers p v u) ≤ 1

theorem appliedOnce_head (ht : Tracked s) (hr : RunningFresh s) (h : AppliedOnce s)
    (hh : Head c s a s₁) : AppliedOnce s₁ := by
  intro p v u
  rcases applied_head hh with ⟨ha, -⟩ | ⟨i, m, hi, ha, -, -⟩
  · rw [ha]
    exact h p v u
  · rw [ha, countP_append, countP_singleton]
    by_cases hc : m.Covers p v u
    · obtain ⟨⟨rfl, rfl⟩, hu⟩ := hc
      have hm : m ∈ s.runningJoins :=
        mem_filterMap.mpr ⟨_, mem_of_getElem? hi, rfl⟩
      have hnone : s.applied.countP (·.Covers m.partId m.version u) = 0 := by
        rw [countP_eq_zero]
        intro m' hm' hc'
        exact hr m hm u hu ((ht _ _ _).mpr ⟨m', hm', by simpa using hc'⟩)
      rw [hnone]
      split_ifs <;> omega
    · have := h p v u
      simpa [hc] using this

/-- **At most once.**  In every run in which no copy of an output outlives the record that it
is applied, every output is applied at most once. -/
theorem applied_at_most_once (c : Spec) (s : PlanController β)
    (hs : ReachIf c (NoStaleCopy c) s) (p v u : Int) :
    s.applied.countP (·.Covers p v u) ≤ 1 := by
  have hinv := reachIf_induct (P := fun s : PlanController β =>
      QueuedFresh s ∧ RunningFresh s ∧ AppliedOnce s) hs sound_stable
    ⟨fun p v m hm => absurd hm (by simp [queued, setup, waitingJoins]),
      fun m hm => absurd hm (by simp [runningJoins, setup]), fun p v u => by simp [setup]⟩
    (fun s a s₁ hB h ha hh => ⟨queuedFresh_head hB.layout h.1 ha hh,
      runningFresh_head hB.excl h.2.1 hh, appliedOnce_head hB.tracked h.2.1 h.2.2 hh⟩)
    (fun s s' hB h ht => ⟨queuedFresh_tail h.1 ht,
      runningFresh_tail hB.layout hB.excl h.1 h.2.1 ht, fun p v u => by
        rw [(recorded_tail ht).1]
        exact h.2.2 p v u⟩)
  exact hinv.2.2.2 p v u

/-- A plan that updates partition `0` of collection `1` from `n` partitions of another. -/
def twoCollections (n : Nat) (staleness iters : Int) : Spec :=
  { onePart n staleness iters with mapCollectionId := 0, fetchCollectionId := -1 }

/-- The output of upstream partition `u` for version `v` of partition `0`. -/
def output (v u : Int) : JoinMeta Unit := ⟨0, v, .one u, false, ()⟩

/-- A copy arrives while its version is incomplete. -/
def earlyCopy : List (Action Unit) :=
  [.kReceiveJoin (output 0 0), .execFetch 0, .process 0, .kReceiveJoin (output 0 0),
    .kReceiveJoin (output 0 1), .execFetch 0, .process 0]

theorem applied_at_most_once_earlyCopy :
    ∃ s, run (step (twoCollections 2 0 1)) (setup (twoCollections 2 0 1)) earlyCopy = .ok s ∧
      s.received.countP (·.Covers 0 0 0) = 2 ∧ s.applied.countP (·.Covers 0 0 0) ≤ 1 :=
  ⟨_, rfl, by decide, applied_at_most_once (twoCollections 2 0 1) _
    (reach_of_run_ok earlyCopy (by decide) rfl) 0 0 0⟩

/-- **A duplicate is applied twice.**  The first delivery completes version 0 of the partition,
which clears the tracker; the copy is applied again. -/
theorem duplicate_applied_twice :
    ∃ s, run (step (twoCollections 1 0 1)) (setup (twoCollections 1 0 1))
        [.kReceiveJoin (output 0 0), .execFetch 0, .process 0,
          .kReceiveJoin (output 0 0), .execFetch 0] = .ok s ∧
      s.applied.countP (·.Covers 0 0 0) = 2 :=
  ⟨_, rfl, by decide⟩

end PlanController

end Tangram
