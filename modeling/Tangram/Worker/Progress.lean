import Tangram.Worker.Queues

/-!
# Progress of the maps, and what is reported

The maps of a partition run one after the other, each version once, and never
further ahead of `min_version_` than the staleness allows (`maps_stable`).  If
maps and updates share a collection, an update that waits, runs or has run is of
a version that the partition has mapped already (`later_stable`).  A report of
an updated partition does not exceed its version (`reports_stable`).
-/

namespace Tangram

open StepRun List Completion
open scoped List

namespace PlanController

variable {β : Type} {c : Spec} {s s' s₁ : PlanController β} {a : Action β} {m : JoinMeta β}

/-! ## Maps -/

/-- The maps of `p` that have ended and are not counted yet. -/
def unfinished (s : PlanController β) (p : Int) : Nat :=
  (s.workQueue.map Completion.use).count (.map p)

structure Maps (c : Spec) (s : PlanController β) : Prop where
  nonneg : ∀ p, 0 ≤ s.mapVersions.val p
  task : ∀ t ∈ s.mapExecutor, t.version = s.mapVersions.val t.partId
  taskBound : ∀ t ∈ s.mapExecutor, t.version ≤ s.minVersion + c.staleness
  mapped : ∀ p v, s.mapped.count (p, v) =
    if 0 ≤ v ∧ v < s.mapVersions.val p + s.unfinished p then 1 else 0
  mappedBound : ∀ x ∈ s.mapped, x.2 ≤ s.minVersion + c.staleness
  mappedLocal : ∀ x ∈ s.mapped, x.1 ∈ c.partitions c.mapCollectionId
  iters : 0 ≤ c.expectedNumIter → ∀ p, s.mapVersions.val p + s.unfinished p ≤ c.expectedNumIter
  taskIters : 0 ≤ c.expectedNumIter → ∀ t ∈ s.mapExecutor, t.version < c.expectedNumIter

theorem maps_setup : Maps c (setup c : PlanController β) where
  nonneg _ := Int.le_refl 0
  task _ h := by cases h
  taskBound _ h := by cases h
  mapped p v := by
    have hno : ¬ (0 ≤ v ∧ v < 0) := by omega
    simp [setup, unfinished, hno]
  mappedBound _ h := by cases h
  mappedLocal _ h := by cases h
  iters h _ := h
  taskIters _ _ h := by cases h

section Changes

variable {s : PlanController β} {i : Nat} {e : Completion} {p : Int}

theorem unfinished_push (s : PlanController β) (e : Completion) (p : Int) :
    unfinished { s with workQueue := s.workQueue ++ [e] } p =
      s.unfinished p + if e.use = .map p then 1 else 0 := by
  simp only [unfinished, map_append, map_cons, map_nil, count_append,
    count_singleton, beq_iff_eq]

theorem unfinished_takeMsg (hi : s.workQueue[i]? = some e) (p : Int) :
    s.unfinished p = (takeMsg s i).unfinished p + if e.use = .map p then 1 else 0 := by
  have hperm := (perm_cons_of_getElem? hi).map use
  rw [unfinished, hperm.count_eq, map_cons, count_cons]
  simp [unfinished, takeMsg]

/-- A map is a task or an unprocessed completion. -/
theorem count_map_inUse (s : PlanController β) (p : Int) :
    s.inUse.count (.map p) = (s.mapExecutor.map MapTask.use).count (.map p) + s.unfinished p := by
  have hfetch : (s.fetchExecutor.map FetchTask.use).count (.map p) = 0 := by
    rw [count_eq_zero]
    intro h
    obtain ⟨t, -, ht⟩ := mem_map.mp h
    cases t <;> cases ht
  have hgrant : (s.localGrants.map Use.fetch).count (.map p) = 0 := by
    rw [count_eq_zero]
    intro h
    obtain ⟨t, -, ht⟩ := mem_map.mp h
    cases ht
  rw [inUse, count_append, count_append, count_append, hfetch, hgrant, unfinished]
  omega

theorem one_map (hx : Excl c s p) :
    (s.mapExecutor.map MapTask.use).count (.map p) + s.unfinished p ≤ 1 := by
  rw [← count_map_inUse, hx.maps]
  split_ifs <;> omega

/-- A partition whose map runs or has just ended has no second one. -/
theorem no_second_map (hx : Excl c s p) {t : MapTask} (ht : t ∈ s.mapExecutor)
    (hp : t.partId = p) : s.unfinished p = 0 := by
  have hone := one_map hx
  have hpos : 0 < (s.mapExecutor.map MapTask.use).count (.map p) := by
    rw [← hp]
    exact count_pos_iff.mpr (mem_map_of_mem (f := MapTask.use) ht)
  omega

theorem Maps.pushMsg (h : Maps c s) (he : ∀ p, e.use ≠ .map p) :
    Maps c { s with workQueue := s.workQueue ++ [e] } := by
  have hun : ∀ p, unfinished { s with workQueue := s.workQueue ++ [e] } p = s.unfinished p := by
    intro p
    rw [unfinished_push, if_neg (he p), Nat.add_zero]
  exact { h with
    mapped := fun p v => by rw [hun p]; exact h.mapped p v
    iters := fun h0 p => by rw [hun p]; exact h.iters h0 p }

theorem Maps.takeMsg (h : Maps c s) (hi : s.workQueue[i]? = some e) (he : ∀ p, e.use ≠ .map p) :
    Maps c (takeMsg s i) := by
  have hun : ∀ p, s.unfinished p = (PlanController.takeMsg s i).unfinished p := by
    intro p
    rw [unfinished_takeMsg hi p, if_neg (he p), Nat.add_zero]
  exact { h with
    mapped := fun p v => by rw [← hun p]; exact h.mapped p v
    iters := fun h0 p => by rw [← hun p]; exact h.iters h0 p }

theorem Maps.endMap (hl : Layout c s) (hx : ∀ p, Excl c s p) (h : Maps c s) {t : MapTask}
    (hi : s.mapExecutor[i]? = some t) :
    Maps c { s with
      mapExecutor := s.mapExecutor.eraseIdx i
      mapped := s.mapped ++ [(t.partId, t.version)]
      workQueue := s.workQueue ++ [.kFinishMap t.partId true] } := by
  have hmem := mem_of_getElem? hi
  have hver := h.task t hmem
  have hnone := no_second_map (hx t.partId) hmem rfl
  have hsub : ∀ t' ∈ s.mapExecutor.eraseIdx i, t' ∈ s.mapExecutor :=
    fun t' ht' => mem_of_mem_eraseIdx ht'
  have hun : ∀ p, unfinished { s with
      mapExecutor := s.mapExecutor.eraseIdx i
      mapped := s.mapped ++ [(t.partId, t.version)]
      workQueue := s.workQueue ++ [.kFinishMap t.partId true] } p =
      s.unfinished p + if t.partId = p then 1 else 0 := by
    intro p
    have hp := unfinished_push s (.kFinishMap t.partId true) p
    simp only [use, Use.map.injEq] at hp
    exact hp
  refine ⟨h.nonneg, fun t' ht' => h.task t' (hsub t' ht'),
    fun t' ht' => h.taskBound t' (hsub t' ht'), fun p v => ?_, fun x hx' => ?_, fun x hx' => ?_,
    fun h0 p => ?_, fun h0 t' ht' => h.taskIters h0 t' (hsub t' ht')⟩
  · -- the version that has ended is the next one
    rw [hun p]
    show (s.mapped ++ [(t.partId, t.version)]).count (p, v) =
      if 0 ≤ v ∧ v < s.mapVersions.val p + (s.unfinished p + if t.partId = p then 1 else 0 : Nat)
      then 1 else 0
    rw [count_append, h.mapped p v, count_singleton]
    simp only [beq_iff_eq, Prod.mk.injEq]
    by_cases hp : t.partId = p
    · subst hp
      have h0 := h.nonneg t.partId
      simp only [hnone, true_and, if_true]
      split_ifs <;> omega
    · simp only [hp, false_and, if_false]
      rfl
  · rcases mem_append.mp hx' with hx' | hx'
    · exact h.mappedBound x hx'
    · rw [mem_singleton.mp hx']
      exact h.taskBound t hmem
  · rcases mem_append.mp hx' with hx' | hx'
    · exact h.mappedLocal x hx'
    · rw [mem_singleton.mp hx']
      have huse : t.use ∈ s.inUse := (inUse_eraseMap s hi).mem_iff.mpr mem_cons_self
      exact hl.inUse _ huse
  · rw [hun p]
    have hp := h.iters h0 p
    split_ifs with he
    · subst he
      have := h.taskIters h0 t hmem
      show s.mapVersions.val t.partId + _ ≤ _
      omega
    · exact hp

theorem Maps.count (hx : ∀ p, Excl c s p) (h : Maps c s) {q : Int} {b : Bool}
    (hi : s.workQueue[i]? = some (.kFinishMap q b)) :
    Maps c (countMap c (mapDone (PlanController.takeMsg s i) q) q) := by
  have hun := unfinished_takeMsg hi
  simp only [use, Use.map.injEq] at hun
  -- nobody maps `q` while its completion is in the queue
  have hnone : ∀ t ∈ s.mapExecutor, t.partId ≠ q := by
    rintro t ht rfl
    have hone := one_map (hx t.partId)
    have hpos : 0 < (s.mapExecutor.map MapTask.use).count (.map t.partId) :=
      count_pos_iff.mpr (mem_map_of_mem (f := MapTask.use) ht)
    have := hun t.partId
    rw [if_pos rfl] at this
    omega
  have hval : ∀ p, (s.mapVersions.set q (s.mapVersions.val q + 1)).val p =
      s.mapVersions.val p + if q = p then 1 else 0 := by
    intro p
    rw [Table.val_set]
    by_cases hp : p = q
    · subst hp
      simp
    · rw [if_neg hp, if_neg (Ne.symm hp), Int.add_zero]
  have hsum : ∀ p, (s.mapVersions.set q (s.mapVersions.val q + 1)).val p +
      ((PlanController.takeMsg s i).unfinished p : Int) = s.mapVersions.val p + s.unfinished p := by
    intro p
    rw [hval p, hun p]
    split_ifs <;> push_cast <;> omega
  refine ⟨fun p => ?_, fun t ht => ?_, h.taskBound, fun p v => ?_, h.mappedBound, h.mappedLocal,
    fun h0 p => ?_, h.taskIters⟩
  · show 0 ≤ (s.mapVersions.set q (s.mapVersions.val q + 1)).val p
    have := h.nonneg p
    rw [hval p]
    split_ifs <;> omega
  · show t.version = (s.mapVersions.set q (s.mapVersions.val q + 1)).val t.partId
    rw [hval, if_neg (Ne.symm (hnone t ht)), Int.add_zero]
    exact h.task t ht
  · have := h.mapped p v
    rw [← hsum p] at this
    exact this
  · have := h.iters h0 p
    rw [← hsum p] at this
    exact this

end Changes

theorem maps_head (hl : Layout c s) (hx : ∀ p, Excl c s p) (h : Maps c s) (hh : Head c s a s₁) :
    Maps c s₁ := by
  cases hh with
  | updateVersion v hlt hv =>
    refine { h with taskBound := fun t ht => ?_, mappedBound := fun x hx => ?_ }
    · have := h.taskBound t ht
      show t.version ≤ v + c.staleness
      omega
    · have := h.mappedBound x hx
      show x.2 ≤ v + c.staleness
      omega
  | abortBegin i t hi hs => simp [hl.noMigration] at hs
  | beginMap i t hi =>
    have hset : ∀ t' ∈ s.mapExecutor.set i { t with started := true },
        ∃ t₀ ∈ s.mapExecutor, t'.partId = t₀.partId ∧ t'.version = t₀.version := by
      intro t' ht'
      rcases mem_or_eq_of_mem_set ht' with ht' | rfl
      · exact ⟨t', ht', rfl, rfl⟩
      · exact ⟨t, mem_of_getElem? hi, rfl, rfl⟩
    refine { h with task := fun t' ht' => ?_, taskBound := fun t' ht' => ?_,
                    taskIters := fun h0 t' ht' => ?_ }
    · obtain ⟨t₀, h₀, hp, hv⟩ := hset t' ht'
      rw [hp, hv]
      exact h.task t₀ h₀
    · obtain ⟨t₀, h₀, hp, hv⟩ := hset t' ht'
      rw [hv]
      exact h.taskBound t₀ h₀
    · obtain ⟨t₀, h₀, hp, hv⟩ := hset t' ht'
      rw [hv]
      exact h.taskIters h0 t₀ h₀
  | abortEnd i t hi hs => simp [hl.noMigration] at hs
  | endMap i t hi hs => exact Maps.endMap hl hx h hi
  | execJoin i m hi =>
    exact { h.pushMsg (e := .kFinishJoin m.partId m.version m.ids) (by simp [use]) with }
  | execCheckpoint i p iter hi =>
    exact { h.pushMsg (e := .kFinishCheckpoint p) (by simp [use]) with }
  | execFetch i f v hi =>
    exact { h.pushMsg (e := .kFinishFetch f.partId f.upstreamPartId) (by simp [use]) with }
  | finishMapGone i p b hi hk =>
    exact absurd (hl.mapKeys ▸ hl.inUse _ (mem_inUse_of_msg hi)) hk
  | finishMap i p b hi hk hc => exact h.count hx hi
  | finishMapJoin i p b hi hk hc => exact { h.count hx hi with }
  | trackJoin i p v ups hi hn => exact { h.takeMsg hi (by simp [use]) with }
  | complete i p v ups hi hn => exact { h.takeMsg hi (by simp [use]) with }
  | completeCheckpoint i p v ups hi hn => exact { h.takeMsg hi (by simp [use]) with }
  | finishFetch i p u hi => exact { h.takeMsg hi (by simp [use]) with }
  | finishCheckpoint i p hi hr => exact { h.takeMsg hi (by simp [use]) with }
  | _ => exact { h with }

theorem maps_tail (h : Maps c s) (ht : Tail c s s') : Maps c s' := by
  cases ht with
  | launch p hr hp =>
    obtain ⟨-, -, hne, hle⟩ := isMapRunnable_spec hr
    have hnew : ∀ t ∈ s.mapExecutor ++ [⟨p, s.mapVersions.val p, false⟩],
        t ∈ s.mapExecutor ∨ t = ⟨p, s.mapVersions.val p, false⟩ := by
      intro t ht
      rcases mem_append.mp ht with ht | ht
      · exact .inl ht
      · exact .inr (mem_singleton.mp ht)
    refine { h with task := fun t ht => ?_, taskBound := fun t ht => ?_,
                    taskIters := fun h0 t ht => ?_ }
    · rcases hnew t ht with ht | rfl
      · exact h.task t ht
      · rfl
    · rcases hnew t ht with ht | rfl
      · exact h.taskBound t ht
      · exact hle
    · rcases hnew t ht with ht | rfl
      · exact h.taskIters h0 t ht
      · have := h.iters h0 p
        show s.mapVersions.val p < _
        omega
  | _ => exact { h with }

theorem maps_stable : Stable c (fun s : PlanController β =>
    (Layout c s ∧ ∀ p, Excl c s p) ∧ Maps c s) :=
  excl_stable.and maps_setup (fun _ _ _ hB h hh => maps_head hB.1 hB.2 h hh)
    fun _ _ _ h ht => maps_tail h ht

/-! ## Updates come after the map of their version -/

/-- An update that may run is of a version that its partition has mapped. -/
structure Later (s : PlanController β) : Prop where
  waiting : ∀ p, ∀ m ∈ s.waitingJoins p, m.version < s.mapVersions.val p
  running : ∀ m ∈ s.runningJoins, m.version < s.mapVersions.val m.partId
  applied : ∀ m ∈ s.applied, m.version < s.mapVersions.val m.partId

theorem Later.mono (h : Later s) (hmap : ∀ p, s.mapVersions.val p ≤ s'.mapVersions.val p)
    (hw : ∀ p, ∀ m ∈ s'.waitingJoins p, m ∈ s.waitingJoins p ∨ m.version < s'.mapVersions.val p)
    (hr : ∀ m ∈ s'.runningJoins, m ∈ s.runningJoins ∨ m.version < s'.mapVersions.val m.partId)
    (ha : ∀ m ∈ s'.applied, m ∈ s.applied ∨ m ∈ s.runningJoins) : Later s' where
  waiting p m hm := by
    rcases hw p m hm with hm | hlt
    · exact lt_of_lt_of_le (h.waiting p m hm) (hmap p)
    · exact hlt
  running m hm := by
    rcases hr m hm with hm | hlt
    · exact lt_of_lt_of_le (h.running m hm) (hmap m.partId)
    · exact hlt
  applied m hm := by
    rcases ha m hm with hm | hm
    · exact lt_of_lt_of_le (h.applied m hm) (hmap m.partId)
    · exact lt_of_lt_of_le (h.running m hm) (hmap m.partId)

theorem mem_waitingJoins_set {p q : Int} {l : List (VersionedJoinMeta β)}
    (hm : m ∈ (s.setWaiting q l).waitingJoins p) :
    (p = q ∧ .join m ∈ l) ∨ m ∈ s.waitingJoins p := by
  by_cases hp : p = q
  · subst hp
    obtain ⟨e, he, hj⟩ := mem_filterMap.mp hm
    simp only [setWaiting, Function.update_self] at he
    cases e with
    | join m' =>
      cases hj
      exact .inl ⟨rfl, he⟩
    | fetch f => cases hj
  · right
    simpa [waitingJoins, setWaiting, Function.update_of_ne hp] using hm

theorem mem_waitingJoins_of_mem {p : Int} (h : .join m ∈ s.waitingUpdates p) :
    m ∈ s.waitingJoins p :=
  mem_filterMap.mpr ⟨_, h, rfl⟩

theorem mem_waitingJoins_append {p q : Int} {l : List (VersionedJoinMeta β)}
    (hm : m ∈ (s.setWaiting q (s.waitingUpdates q ++ l)).waitingJoins p) :
    m ∈ s.waitingJoins p ∨ p = q ∧ .join m ∈ l := by
  rcases mem_waitingJoins_set hm with ⟨rfl, hmem⟩ | hm
  · exact (mem_append.mp hmem).imp mem_waitingJoins_of_mem fun hm => ⟨rfl, hm⟩
  · exact .inl hm

theorem runningJoins_erase {i : Nat}
    (h : m ∈ (s.fetchExecutor.eraseIdx i).filterMap FetchTask.join?) : m ∈ s.runningJoins := by
  obtain ⟨t, ht, hj⟩ := mem_filterMap.mp h
  exact mem_filterMap.mpr ⟨t, mem_of_mem_eraseIdx ht, hj⟩

theorem later_head (hc : c.mapCollectionId = c.updateCollectionId) (hl : Layout c s) (h : Later s)
    (hh : Head c s a s₁) : Later s₁ := by
  have hgrow : ∀ q p, s.mapVersions.val p ≤ (s.mapVersions.set q (s.mapVersions.val q + 1)).val p := by
    intro q p
    rw [Table.val_set]
    split_ifs with hp
    · subst hp
      omega
    · exact le_rfl
  cases hh with
  | waitJoin m hk hj hv =>
    refine h.mono (fun p => le_rfl) (fun p m' hm => ?_) (fun m' hm => .inl hm)
      fun m' hm => .inl hm
    rcases mem_waitingJoins_append hm with hm | ⟨rfl, hnew⟩
    · exact .inl hm
    · cases mem_singleton.mp hnew
      exact .inr (hv hc)
  | runFetch f hp hf hr =>
    refine h.mono (fun p => le_rfl) (fun p m' hm => .inl hm) (fun m' hm => .inl ?_)
      fun m' hm => .inl hm
    rw [runningJoins_runFetchRequest] at hm
    exact hm
  | waitFetch f hk hf hc' hr =>
    refine h.mono (fun p => le_rfl) (fun p m' hm => ?_) (fun m' hm => .inl hm)
      fun m' hm => .inl hm
    rcases mem_waitingJoins_append hm with hm | ⟨rfl, hnew⟩
    · exact .inl hm
    · cases mem_singleton.mp hnew
  | execJoin i m hi =>
    refine h.mono (fun p => le_rfl) (fun p m' hm => .inl hm)
      (fun m' hm => .inl (runningJoins_erase hm)) fun m' hm => ?_
    rcases mem_append.mp hm with hm | hm
    · exact .inl hm
    · rw [mem_singleton.mp hm]
      exact .inr (mem_filterMap.mpr ⟨_, mem_of_getElem? hi, rfl⟩)
  | execCheckpoint i p iter hi | execFetch i f v hi =>
    exact h.mono (fun p => le_rfl) (fun p m' hm => .inl hm)
      (fun m' hm => .inl (runningJoins_erase hm)) fun m' hm => .inl hm
  | finishMap i q b hi hk hne => exact absurd hc hne
  | finishMapJoin i q b hi hk _ =>
    refine h.mono (hgrow q) (fun p m' hm => ?_) (fun m' hm => .inl hm) fun m' hm => .inl hm
    rcases mem_waitingJoins_append hm with hm | ⟨rfl, hnew⟩
    · exact .inl hm
    · -- what was pending is of the version that has just been mapped
      obtain ⟨m₀, hm₀, he⟩ := mem_map.mp hnew
      cases he
      have hver := (hl.pending p _ m' hm₀).2.1
      right
      show m'.version < (s.mapVersions.set p (s.mapVersions.val p + 1)).val p
      rw [Table.val_set_self, hver]
      omega
  | completeCheckpoint i p v ups hi hn =>
    refine h.mono (fun p => le_rfl) (fun p m' hm => .inl hm) (fun m' hm => .inl ?_)
      fun m' hm => .inl hm
    obtain ⟨t, ht, hj⟩ := mem_filterMap.mp hm
    rcases mem_append.mp ht with ht | ht
    · exact mem_filterMap.mpr ⟨t, ht, hj⟩
    · cases mem_singleton.mp ht
      cases hj
  | _ => exact { h with }

theorem later_tail (hl : Layout c s) (h : Later s) (ht : Tail c s s') : Later s' := by
  have hpop : ∀ {p : Int} {e : VersionedJoinMeta β} {rest : List (VersionedJoinMeta β)},
      s.waitingUpdates p = e :: rest → ∀ q, ∀ m ∈ (s.setWaiting p rest).waitingJoins q,
      m ∈ s.waitingJoins q := by
    intro p e rest hq q m hm
    rcases mem_waitingJoins_set hm with ⟨rfl, hmem⟩ | hm
    · exact mem_waitingJoins_of_mem (hq ▸ mem_cons_of_mem _ hmem)
    · exact hm
  cases ht with
  | launch p hr hp => exact { h with }
  | popDuplicate p m rest hq hb hj =>
    exact h.mono (fun p => le_rfl) (fun p' m' hm => .inl (hpop hq p' m' hm))
      (fun m' hm => .inl hm) fun m' hm => .inl hm
  | popFetch p f rest hq hb =>
    refine h.mono (fun p => le_rfl) (fun p' m' hm => .inl (hpop hq p' m' hm))
      (fun m' hm => .inl ?_) fun m' hm => .inl hm
    rw [runningJoins_runFetchRequest] at hm
    exact hm
  | popJoin p m rest hq hb hj hr =>
    refine h.mono (fun p => le_rfl) (fun p' m' hm => .inl (hpop hq p' m' hm))
      (fun m' hm => ?_) fun m' hm => .inl hm
    obtain ⟨t, ht, hjoin⟩ := mem_filterMap.mp hm
    rcases mem_append.mp ht with ht | ht
    · exact .inl (mem_filterMap.mpr ⟨t, ht, hjoin⟩)
    · rw [mem_singleton.mp ht] at hjoin
      obtain rfl : m = m' := Option.some.inj hjoin
      have hmem : .join m ∈ s.waitingUpdates p := hq ▸ mem_cons_self
      have hmp : m.partId = p := (hl.waiting p _ hmem).1
      right
      show m.version < s.mapVersions.val m.partId
      rw [hmp]
      exact h.waiting p m (mem_waitingJoins_of_mem hmem)

theorem later_stable (hc : c.mapCollectionId = c.updateCollectionId) :
    Stable c (fun s : PlanController β => Layout c s ∧ Later s) :=
  layout_stable.and ⟨by simp [waitingJoins, setup], by simp [runningJoins, setup], by simp [setup]⟩
    (fun _ _ _ hl h hh => later_head hc hl h hh) fun _ _ hl h ht => later_tail hl h ht

/-! ## Reports -/

/-- A report is of a finished map, or of a local partition and does not exceed its version. -/
def Reports (c : Spec) (s : PlanController β) : Prop :=
  ∀ r ∈ s.toScheduler, r.flag = .kMap ∨ (r.flag = .kJoin ∧
    r.partId ∈ c.partitions c.updateCollectionId ∧ r.version ≤ s.updateVersions.val r.partId)

theorem le_completeVersion (s : PlanController β) (q w p : Int) :
    s.updateVersions.val p ≤ (completeVersion s q w).updateVersions.val p := by
  show _ ≤ (s.updateVersions.set q (s.updateVersions.val q + 1)).val p
  rw [Table.val_set]
  split_ifs with hp
  · subst hp
    omega
  · exact le_rfl

/-- The version of an updated partition never falls. -/
theorem updateVersions_step (h : step c s a = .ok s') (p : Int) :
    s.updateVersions.val p ≤ s'.updateVersions.val p := by
  refine step_induct (P := fun t => s.updateVersions.val p ≤ t.updateVersions.val p) h
    (fun s₁ hh => ?_) fun t u ht htail => ?_
  · cases hh with
    | complete i q w ups hi hn | completeCheckpoint i q w ups hi hn =>
      exact le_completeVersion (trackJoin (takeMsg s i) q w ups) q w p
    | _ => exact le_rfl
  · cases htail <;> exact ht

theorem Reports.completeVersion (h : Reports c s) (q w : Int) :
    Reports c (completeVersion s q w) := by
  intro r hr
  rcases h r hr with hf | ⟨hf, hp, hle⟩
  · exact .inl hf
  · exact .inr ⟨hf, hp, hle.trans (le_completeVersion s q w r.partId)⟩

theorem Reports.reportJoin {s : PlanController β} (h : Reports c s) {q : Int}
    (hq : q ∈ c.partitions c.updateCollectionId) : Reports c (reportJoin c s q) := by
  intro r hr
  rcases mem_append.mp hr with hr | hr
  · exact h r hr
  · rw [mem_singleton.mp hr]
    exact .inr ⟨rfl, hq, le_rfl⟩

theorem Reports.countMap (h : Reports c s) (q : Int) : Reports c (countMap c s q) := by
  intro r hr
  rcases mem_append.mp hr with hr | hr
  · exact h r hr
  · rw [mem_singleton.mp hr]
    exact .inl rfl

theorem reports_head (hl : Layout c s) (h : Reports c s) (hh : Head c s a s₁) : Reports c s₁ := by
  cases hh with
  | finishMap i q b hi hk hc | finishMapJoin i q b hi hk hc =>
    exact Reports.countMap (s := mapDone (takeMsg s i) q) h q
  | complete i q w ups hi hn =>
    have h₁ : Reports c (PlanController.trackJoin (takeMsg s i) q w ups) := h
    exact (h₁.completeVersion q w).reportJoin (hl.inUse _ (mem_inUse_of_msg hi))
  | completeCheckpoint i q w ups hi hn =>
    have h₁ : Reports c (PlanController.trackJoin (takeMsg s i) q w ups) := h
    exact h₁.completeVersion q w
  | finishCheckpoint i q hi hr =>
    have h₁ : Reports c (releaseUpdate (takeMsg s i) q) := h
    exact h₁.reportJoin (hl.inUse _ (mem_inUse_of_msg hi))
  | _ => exact h

theorem reports_stable : Stable c (fun s : PlanController β => Layout c s ∧ Reports c s) :=
  layout_stable.and (fun r hr => by cases hr) (fun _ _ _ hl h hh => reports_head hl h hh)
    fun _ _ _ h ht => by cases ht <;> exact h

end PlanController

end Tangram
