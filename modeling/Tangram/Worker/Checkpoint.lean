import Tangram.Worker.Versions

/-!
# Interval checkpoints of a controller

`TryCheckpoint` runs when the version of a partition has been counted and takes
the place of the update until the file is written; only then is the version
reported.  So with interval `ci`

    version v of p is reported  →  checkpoint k of p is written, for every k * ci ≤ v

and while checkpoint `k` is being written the version of `p` stays `k * ci`.
-/

namespace Tangram

open Relation List PlanController

namespace PlanController

variable {β : Type} {c : Spec} {s s' : PlanController β} {a : Action β} {i : Nat} {t : FetchTask β}
  {p k : Int} {l : List (FetchTask β)}

/-! ## When a checkpoint is due -/

/-- A version that was counted is reported at once unless a checkpoint is due. -/
def Timely (c : Spec) (s s₁ : PlanController β) : Prop :=
  ∀ p, s₁.updateVersions.val p ≠ s.updateVersions.val p →
    (CheckpointDue c s₁ p ↔ s₁.toScheduler = s.toScheduler)

theorem tryCheckpoint_due {p : Int} {b : Bool} (h : tryCheckpoint c s p = .ok (b, s')) :
    b = true ↔ CheckpointDue c s p := by
  unfold tryCheckpoint at h
  split at h
  · next hd =>
    obtain ⟨_, _, h⟩ := StepRun.bind_eq_ok.mp h
    cases h
    exact iff_of_true rfl hd
  · next hd =>
    cases h
    exact iff_of_false (by simp) hd

/-- Only `p` is counted. -/
theorem updateVersions_completeVersion_ne {s : PlanController β} {p q v : Int} (hq : q ≠ p) :
    (completeVersion s p v).updateVersions.val q = s.updateVersions.val q :=
  Table.val_set_ne _ _ hq

theorem finishJoin_timely {p v : Int} {ups : List Int}
    (hi : s.workQueue[i]? = some (.kFinishJoin p v ups))
    (h : finishJoin c (takeMsg s i) p v ups = .ok s') :
    ∃ s₁, Head c s (.process i) s₁ ∧ ReflTransGen (Tail c) s₁ s' ∧ Timely c s s₁ := by
  unfold finishJoin at h
  simp only [trackJoin_tracker] at h
  split at h
  · next hn =>
    obtain ⟨⟨b, s₂⟩, h₂, h⟩ := StepRun.bind_eq_ok.mp h
    have hdue := tryCheckpoint_due h₂
    rcases tryCheckpoint_eq_ok h₂ with ⟨rfl, rfl⟩ | ⟨rfl, rfl⟩
    · cases h
      refine ⟨_, Head.completeCheckpoint s i p v ups hi hn, .refl, fun q hq => ?_⟩
      obtain rfl : q = p := by
        by_contra hne
        exact hq (updateVersions_completeVersion_ne (v := v) hne)
      exact iff_of_true (hdue.mp rfl) rfl
    · refine ⟨_, Head.complete s i p v ups hi hn, tryRunWaitingJoins_tail c h, fun q hq => ?_⟩
      obtain rfl : q = p := by
        by_contra hne
        exact hq (updateVersions_completeVersion_ne (v := v) hne)
      refine iff_of_false (fun hd => ?_) fun he => ?_
      · cases hdue.mpr hd
      · have hlen := congrArg List.length he
        simp [reportJoin, reportFinishPart, completeVersion, trackJoin, releaseUpdate,
          takeMsg] at hlen
  · next hn =>
    exact ⟨_, Head.trackJoin s i p v ups hi hn, tryRunWaitingJoins_tail c h,
      fun q hq => absurd rfl hq⟩

/-- **One step**, and when it starts a checkpoint. -/
theorem step_timely (h : step c s a = .ok s') :
    ∃ s₁, Head c s a s₁ ∧ ReflTransGen (Tail c) s₁ s' ∧ Timely c s s₁ := by
  by_cases hj : ∃ i p v ups, a = .process i ∧ s.workQueue[i]? = some (.kFinishJoin p v ups)
  · obtain ⟨i, p, v, ups, rfl, hi⟩ := hj
    simp only [step, hi] at h
    exact finishJoin_timely hi h
  · obtain ⟨s₁, hh, ht⟩ := step_head_tail h
    refine ⟨s₁, hh, ht, fun p hp => absurd ?_ hp⟩
    cases hh with
    | complete i q v ups hi hn => exact absurd ⟨i, q, v, ups, rfl, hi⟩ hj
    | completeCheckpoint i q v ups hi hn => exact absurd ⟨i, q, v, ups, rfl, hi⟩ hj
    | _ => rfl

/-! ## Tasks of checkpoints -/

theorem mem_submit (ht : ∀ p k, t ≠ .checkpoint p k) (p k : Int) :
    .checkpoint p k ∈ l ++ [t] ↔ .checkpoint p k ∈ l := by
  rw [mem_append, mem_singleton]
  exact or_iff_left fun he => ht p k he.symm

theorem mem_eraseTask (hi : l[i]? = some t) (ht : ∀ p k, t ≠ .checkpoint p k) (p k : Int) :
    .checkpoint p k ∈ l.eraseIdx i ↔ .checkpoint p k ∈ l := by
  rw [(perm_cons_of_getElem? hi).mem_iff, mem_cons]
  exact (or_iff_right fun he => ht p k he.symm).symm

theorem prefix_runFetchRequest (s : PlanController β) (f : FetchReq) :
    s.fetchExecutor <+: (runFetchRequest c s f).fetchExecutor := by
  simp only [runFetchRequest]
  split
  · exact prefix_refl _
  · exact prefix_append _ _

/-- Only a task that is run leaves the executor, and only a checkpoint that is run is written. -/
theorem tasks_step (ha : ∀ i, a ≠ .execFetch i) (h : step c s a = .ok s') :
    s'.checkpoints = s.checkpoints ∧ s.fetchExecutor <+: s'.fetchExecutor := by
  refine step_induct (P := fun t => t.checkpoints = s.checkpoints ∧
    s.fetchExecutor <+: t.fetchExecutor) h (fun s₁ hh => ?_) fun t u ht htail => ?_
  · cases hh with
    | runFetch f hp hf hr => exact ⟨rfl, prefix_runFetchRequest s f⟩
    | execJoin i m hi => exact absurd rfl (ha i)
    | execCheckpoint i p k hi => exact absurd rfl (ha i)
    | execFetch i f v hi => exact absurd rfl (ha i)
    | completeCheckpoint i p v ups hi hn => exact ⟨rfl, prefix_append _ _⟩
    | _ => exact ⟨rfl, prefix_refl _⟩
  · cases htail with
    | popFetch p f rest hq hb =>
      exact ⟨ht.1, ht.2.trans (prefix_runFetchRequest (t.setWaiting p rest) f)⟩
    | popJoin p m rest hq hb hj hr => exact ⟨ht.1, ht.2.trans (prefix_append _ _)⟩
    | _ => exact ht

theorem checkpoints_step (h : step c s a = .ok s') : s.checkpoints ⊆ s'.checkpoints := by
  refine step_induct (P := fun t => s.checkpoints ⊆ t.checkpoints) h (fun s₁ hh => ?_)
    fun t u ht htail => ?_
  · cases hh with
    | execCheckpoint i p k hi => exact subset_append_left _ _
    | _ => exact List.Subset.refl _
  · cases htail <;> exact ht

theorem execFetch_checkpoint (hi : s.fetchExecutor[i]? = some (.checkpoint p k))
    (h : execFetch c s i = .ok s') :
    s' = { taskDone s i (.kFinishCheckpoint p) with checkpoints := s.checkpoints ++ [(p, k)] } := by
  simp only [execFetch, hi] at h
  obtain ⟨_, -, h⟩ := StepRun.bind_eq_ok.mp h
  exact (Except.ok.inj h).symm

theorem execFetch_noCheckpoint (hi : ∀ p k, s.fetchExecutor[i]? ≠ some (.checkpoint p k))
    (h : execFetch c s i = .ok s') :
    s'.checkpoints = s.checkpoints ∧
      ∀ p k, .checkpoint p k ∈ s'.fetchExecutor ↔ .checkpoint p k ∈ s.fetchExecutor := by
  cases execFetch_head h with
  | noop ha hv => exact ⟨rfl, fun _ _ => Iff.rfl⟩
  | execJoin _ m hj => exact ⟨rfl, mem_eraseTask hj (by simp)⟩
  | execCheckpoint _ p k hj => exact absurd hj (hi p k)
  | execFetch _ f v hj => exact ⟨rfl, mem_eraseTask hj (by simp)⟩

/-- A checkpoint starts when the version of its partition is counted. -/
theorem started_step (h : step c s a = .ok s') (hk : .checkpoint p k ∈ s'.fetchExecutor)
    (hnew : .checkpoint p k ∉ s.fetchExecutor) :
    s'.applied = s.applied ∧ s'.updateVersions.val p = s.updateVersions.val p + 1 := by
  have hrun : ∀ (t : PlanController β) (f : FetchReq),
      .checkpoint p k ∈ (runFetchRequest c t f).fetchExecutor → .checkpoint p k ∈ t.fetchExecutor := by
    intro t f
    simp only [runFetchRequest]
    split
    · exact id
    · exact (mem_submit (by simp) p k).mp
  refine step_induct (P := fun t => .checkpoint p k ∈ t.fetchExecutor →
    t.applied = s.applied ∧ t.updateVersions.val p = s.updateVersions.val p + 1) h
    (fun s₁ hh hk => ?_) (fun t u ht htail hk => ?_) hk
  · cases hh with
    | runFetch f hp hf hr => exact absurd (hrun s f hk) hnew
    | execJoin i m hi => exact absurd (mem_of_mem_eraseIdx hk) hnew
    | execCheckpoint i q j hi => exact absurd (mem_of_mem_eraseIdx hk) hnew
    | execFetch i f v hi => exact absurd (mem_of_mem_eraseIdx hk) hnew
    | completeCheckpoint i q v ups hi hn =>
      rcases mem_append.mp hk with hk | hk
      · exact absurd hk hnew
      · cases mem_singleton.mp hk
        exact ⟨rfl, Table.val_set_self _ _ _⟩
    | _ => exact absurd hk hnew
  · cases htail with
    | popFetch q f rest hq hb => exact ht (hrun (t.setWaiting q rest) f hk)
    | popJoin q m rest hq hb hj hr => exact ht ((mem_submit (by simp) p k).mp hk)
    | _ => exact ht hk

/-! ## What is written -/

structure Saved (c : Spec) (s : PlanController β) : Prop where
  /-- The task of a checkpoint is for the present version, and runs for the first time. -/
  task : ∀ p k, .checkpoint p k ∈ s.fetchExecutor →
    s.updateVersions.val p = k * c.checkpointInterval ∧ (p, k) ∉ s.checkpoints
  written : ∀ p k, (p, k) ∈ s.checkpoints → k * c.checkpointInterval ≤ s.updateVersions.val p
  all : ∀ p k, 1 ≤ k → k * c.checkpointInterval ≤ s.updateVersions.val p →
    (p, k) ∈ s.checkpoints ∨ .checkpoint p k ∈ s.fetchExecutor
  reported : ∀ r ∈ s.toScheduler, r.flag = .kJoin → ∀ k, 1 ≤ k →
    k * c.checkpointInterval ≤ r.version → (r.partId, k) ∈ s.checkpoints

theorem saved_setup (hci : 1 ≤ c.checkpointInterval) : Saved c (setup c : PlanController β) where
  task _ _ h := by cases h
  written _ _ h := by cases h
  all p k hk hle := by
    have h0 : (setup c : PlanController β).updateVersions.val p = 0 := rfl
    rw [h0] at hle
    have hmul : 1 * 1 ≤ k * c.checkpointInterval := Int.mul_le_mul hk hci (by omega) (by omega)
    omega
  reported _ h := by cases h

section Changes

variable {s s' : PlanController β}

/-- Tasks other than checkpoints come and go. -/
theorem Saved.of_tasks (h : Saved c s)
    (htask : ∀ p k, .checkpoint p k ∈ s'.fetchExecutor ↔ .checkpoint p k ∈ s.fetchExecutor)
    (hver : s'.updateVersions = s.updateVersions) (hcp : s'.checkpoints = s.checkpoints)
    (hrep : ∀ r ∈ s'.toScheduler, r ∈ s.toScheduler ∨ r.flag = .kMap) : Saved c s' where
  task p k hk := by
    rw [hver, hcp]
    exact h.task p k ((htask p k).mp hk)
  written p k hk := by
    rw [hver]
    exact h.written p k (hcp ▸ hk)
  all p k hk hle := by
    rw [hcp, htask]
    exact h.all p k hk (hver ▸ hle)
  reported r hr hf := by
    rw [hcp]
    rcases hrep r hr with hr | hmap
    · exact h.reported r hr hf
    · cases hmap.symm.trans hf

theorem no_task_of_msg {p : Int} (hx : Excl c s p) {e : Completion} (hi : s.workQueue[i]? = some e)
    (he : e.use = .update p) (ht : t ∈ s.fetchExecutor) : t.use ≠ .update p :=
  fun hu => not_inUse_of_msg hx hi he (mem_append_left _ (mem_map.mpr ⟨t, ht, hu⟩))

/-- The task of a checkpoint is the only one that updates or saves its partition. -/
theorem task_use_ne (hx : Excl c s p) (hi : s.fetchExecutor[i]? = some (.checkpoint p k))
    (ht : t ∈ s.fetchExecutor.eraseIdx i) : t.use ≠ .update p := by
  intro hu
  have hmem : Use.update p ∈ (s.fetchExecutor.eraseIdx i).map FetchTask.use :=
    mem_map.mpr ⟨t, ht, hu⟩
  have hpos := count_pos_iff.mpr hmem
  have hcount := ((perm_cons_of_getElem? hi).map FetchTask.use).count_eq (.update p)
  have hone := hx.updates
  rw [inUse, count_append, hcount, map_cons, FetchTask.use, count_cons_self] at hone
  split_ifs at hone <;> omega

/-- No update waits for or has a thread while its partition is being saved. -/
theorem join_ne_of_checkpoint (hx : Excl c s p) (hk : .checkpoint p k ∈ s.fetchExecutor)
    {m : JoinMeta β} (hm : .join m ∈ s.fetchExecutor) : m.partId ≠ p := by
  obtain ⟨i, hi⟩ := mem_iff_getElem?.mp hk
  rw [(perm_cons_of_getElem? hi).mem_iff] at hm
  rcases mem_cons.mp hm with he | hm
  · cases he
  · intro hp
    exact task_use_ne hx hi hm (congrArg Use.update hp)

theorem Saved.write (hs : Sound c s) (h : Saved c s)
    (hi : s.fetchExecutor[i]? = some (.checkpoint p k)) :
    Saved c { taskDone s i (.kFinishCheckpoint p) with checkpoints := s.checkpoints ++ [(p, k)] } where
  task q j hj := by
    obtain ⟨hver, hnew⟩ := h.task q j (mem_of_mem_eraseIdx hj)
    refine ⟨hver, fun hmem => ?_⟩
    rcases mem_append.mp hmem with hmem | hmem
    · exact hnew hmem
    · cases mem_singleton.mp hmem
      exact task_use_ne (hs.excl p) hi hj rfl
  written q j hj := by
    rcases mem_append.mp hj with hj | hj
    · exact h.written q j hj
    · cases mem_singleton.mp hj
      exact (h.task p k (mem_of_getElem? hi)).1.ge
  all q j hj hle := by
    rcases h.all q j hj hle with hmem | hmem
    · exact .inl (mem_append_left _ hmem)
    · rw [(perm_cons_of_getElem? hi).mem_iff, mem_cons] at hmem
      rcases hmem with he | hmem
      · cases he
        exact .inl (mem_append_right _ (mem_singleton.mpr rfl))
      · exact .inr hmem
  reported r hr hf j hj hle := mem_append_left _ (h.reported r hr hf j hj hle)

/-- The version of a partition that is not being saved is reported. -/
theorem Saved.report (h : Saved c s) {p : Int}
    (hno : ∀ k, 1 ≤ k → .checkpoint p k ∉ s.fetchExecutor) : Saved c (reportJoin c s p) where
  task := h.task
  written := h.written
  all := h.all
  reported r hr hf k hk hle := by
    rcases mem_append.mp hr with hr | hr
    · exact h.reported r hr hf k hk hle
    · rw [mem_singleton.mp hr] at hle ⊢
      exact (h.all p k hk hle).resolve_right (hno k hk)

/-- A version is counted and no checkpoint is due. -/
theorem Saved.countVersion (h : Saved c s) {p v : Int}
    (hno : ∀ k, .checkpoint p k ∉ s.fetchExecutor)
    (hdue : ∀ k, k * c.checkpointInterval ≠ s.updateVersions.val p + 1) :
    Saved c (completeVersion s p v) := by
  have hval : ∀ q, (completeVersion s p v).updateVersions.val q =
      if q = p then s.updateVersions.val p + 1 else s.updateVersions.val q :=
    fun q => Table.val_set _ _ _ _
  refine ⟨fun q k hk => ?_, fun q k hk => ?_, fun q k hk hle => ?_, h.reported⟩
  · have hq : q ≠ p := by
      rintro rfl
      exact hno k hk
    rw [hval, if_neg hq]
    exact h.task q k hk
  · have := h.written q k hk
    rw [hval]
    split_ifs with hq
    · subst hq
      omega
    · exact this
  · rw [hval] at hle
    split_ifs at hle with hq
    · subst hq
      have := hdue k
      exact h.all q k hk (by omega)
    · exact h.all q k hk hle

/-- A version is counted and its checkpoint starts. -/
theorem Saved.countAndSave (h : Saved c s) {p v : Int}
    (hno : ∀ k, .checkpoint p k ∉ s.fetchExecutor)
    (hdue : CheckpointDue c (completeVersion s p v) p) :
    Saved c (startCheckpoint c (completeVersion s p v) p) := by
  have hval : ∀ q, (completeVersion s p v).updateVersions.val q =
      if q = p then s.updateVersions.val p + 1 else s.updateVersions.val q :=
    fun q => Table.val_set _ _ _ _
  obtain ⟨hci, hmod⟩ := hdue
  rw [hval, if_pos rfl] at hmod
  -- the number of the checkpoint
  have hk : s.updateVersions.val p + 1 =
      (s.updateVersions.val p + 1).tdiv c.checkpointInterval * c.checkpointInterval := by
    have := Int.tdiv_mul_add_tmod (s.updateVersions.val p + 1) c.checkpointInterval
    omega
  have htask : ∀ q k, .checkpoint q k ∈
      (startCheckpoint c (completeVersion s p v) p).fetchExecutor ↔
      .checkpoint q k ∈ s.fetchExecutor ∨
        (q = p ∧ k = (s.updateVersions.val p + 1).tdiv c.checkpointInterval) := by
    intro q k
    simp only [startCheckpoint, hval, if_pos, mem_append, mem_singleton,
      FetchTask.checkpoint.injEq]
    exact Iff.rfl
  refine ⟨fun q k hq => ?_, fun q k hq => ?_, fun q k h1 hle => ?_, h.reported⟩
  · show (completeVersion s p v).updateVersions.val q = _ ∧ (q, k) ∉ s.checkpoints
    rw [hval]
    rcases (htask q k).mp hq with hq' | ⟨rfl, rfl⟩
    · have hne : q ≠ p := by
        rintro rfl
        exact hno k hq'
      rw [if_neg hne]
      exact h.task q k hq'
    · rw [if_pos rfl]
      refine ⟨hk, fun hmem => ?_⟩
      have := h.written _ _ hmem
      omega
  · have := h.written q k hq
    show _ ≤ (completeVersion s p v).updateVersions.val q
    rw [hval]
    split_ifs with he
    · subst he
      omega
    · exact this
  · rw [htask]
    replace hle : k * c.checkpointInterval ≤
      (completeVersion s p v).updateVersions.val q := hle
    rw [hval] at hle
    split_ifs at hle with he
    · subst he
      by_cases hlast : k * c.checkpointInterval = s.updateVersions.val q + 1
      · refine .inr (.inr ⟨rfl, ?_⟩)
        rw [← hlast, Int.mul_tdiv_cancel _ hci]
      · exact (h.all q k h1 (by omega)).imp_right .inl
    · exact (h.all q k h1 hle).imp_right .inl

theorem saved_head {s s₁ : PlanController β} (hci : 1 ≤ c.checkpointInterval) (hs : Sound c s)
    (h : Saved c s) (hh : Head c s a s₁) (hT : Timely c s s₁) : Saved c s₁ := by
  cases hh with
  | runFetch f hp hf hr =>
    refine h.of_tasks (fun p k => ?_) rfl rfl fun r hr => .inl hr
    simp only [runFetchRequest]
    split
    · exact Iff.rfl
    · exact mem_submit (by simp) p k
  | execJoin i m hi | execFetch i f v hi =>
    exact h.of_tasks (mem_eraseTask hi (by simp)) rfl rfl fun r hr => .inl hr
  | execCheckpoint i p k hi => exact h.write hs hi
  | finishMap i p b hi hk hc | finishMapJoin i p b hi hk hc =>
    refine h.of_tasks (fun _ _ => Iff.rfl) rfl rfl fun r hr => ?_
    exact (mem_append.mp hr).imp_right fun hr => by rw [mem_singleton.mp hr]
  | complete i p v ups hi hn =>
    have h₁ : Saved c (trackJoin (takeMsg s i) p v ups) := { h with }
    have hno : ∀ k, .checkpoint p k ∉ s.fetchExecutor :=
      fun k hk => no_task_of_msg (hs.excl p) hi rfl hk rfl
    have hval : (completeVersion (trackJoin (takeMsg s i) p v ups) p
        v).updateVersions.val p = s.updateVersions.val p + 1 := Table.val_set_self _ _ _
    -- the report says that no checkpoint was due
    have hdue : ¬ CheckpointDue c (completeVersion
        (trackJoin (takeMsg s i) p v ups) p v) p := by
      intro hd
      have hne : (completeVersion (trackJoin (takeMsg s i) p v ups) p
          v).updateVersions.val p ≠ s.updateVersions.val p := by omega
      have hlen := congrArg List.length ((hT p hne).mp hd)
      simp [reportJoin, reportFinishPart, completeVersion, trackJoin,
        releaseUpdate, takeMsg] at hlen
    refine (h₁.countVersion hno fun k hk => ?_).report fun k _ => hno k
    refine hdue ⟨?_, ?_⟩
    · omega
    · rw [hval, show s.updateVersions.val p + 1 = _ from hk.symm]
      exact Int.mul_tmod_left _ _
  | completeCheckpoint i p v ups hi hn =>
    have h₁ : Saved c (trackJoin (takeMsg s i) p v ups) := { h with }
    have hne : (completeVersion (trackJoin (takeMsg s i) p v ups) p
        v).updateVersions.val p ≠ s.updateVersions.val p := by
      have hval : (completeVersion (trackJoin (takeMsg s i) p v ups) p
        v).updateVersions.val p = s.updateVersions.val p + 1 := Table.val_set_self _ _ _
      omega
    exact h₁.countAndSave (fun k hk => no_task_of_msg (hs.excl p) hi rfl hk rfl)
      ((hT p hne).mpr rfl)
  | finishCheckpoint i p hi hr =>
    have h₁ : Saved c (releaseUpdate (takeMsg s i) p) := { h with }
    exact h₁.report fun k _ hk => no_task_of_msg (hs.excl p) hi rfl hk rfl
  | _ => exact { h with }

theorem saved_tail (h : Saved c s) (ht : Tail c s s') : Saved c s' := by
  cases ht with
  | popFetch p f rest hq hb =>
    refine h.of_tasks (fun p k => ?_) rfl rfl fun r hr => .inl hr
    simp only [runFetchRequest]
    split
    · exact Iff.rfl
    · exact mem_submit (by simp) p k
  | popJoin p m rest hq hb hj hr =>
    exact h.of_tasks (mem_submit (by simp)) rfl rfl fun r hr => .inl hr
  | _ => exact { h with }

theorem saved_step (hci : 1 ≤ c.checkpointInterval) (hs : Sound c s) (h : Saved c s)
    (hstep : step c s a = .ok s') : Saved c s' := by
  obtain ⟨s₁, hh, ht, hT⟩ := step_timely hstep
  clear hstep
  induction ht with
  | refl => exact saved_head hci hs h hh hT
  | tail _ ht ih => exact saved_tail ih ht

end Changes

/-- **Reported versions are saved**, in every state of every run. -/
theorem saved_reachIf {ok : PlanController β → Action β → Prop} {s : PlanController β}
    (hci : 1 ≤ c.checkpointInterval) (hs : ReachIf c ok s) : Saved c s := by
  refine (StepRun.Reach.induct (P := fun s => Sound c s ∧ Saved c s) hs
    ⟨sound_stable.start, saved_setup hci⟩ fun t a u _ h _ hstep => ⟨?_, ?_⟩).2
  · exact step_induct hstep (fun s₁ hh => sound_stable.head t a s₁ h.1 hh) sound_stable.tail
  · exact saved_step hci h.1 h.2 hstep

end PlanController

end Tangram
