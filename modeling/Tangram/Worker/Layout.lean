import Tangram.Lib.Bag
import Tangram.Worker.Steps

/-!
# What occupies a partition, and where things are

A task occupies its partition from the moment it is submitted until the
controller has processed its completion, a granted fetch until it is released:
`inUse` lists what occupies which partition.  In every run the queues hold what
their keys say, and only for partitions that are local.

    Stable c (Layout c)                                                  (layout_stable)
-/

namespace Tangram

open StepRun List Function PlanController
open scoped List

variable {β : Type}

/-! ## What occupies a partition -/

/-- A partition is updated (or checkpointed), mapped or fetched. -/
inductive Use
  | update (partId : Int)
  | map (partId : Int)
  | fetch (partId : Int)
deriving DecidableEq, Repr

def FetchTask.use : FetchTask β → Use
  | .join m => .update m.partId
  | .checkpoint p _ => .update p
  | .fetch f _ => .fetch f.partId

def MapTask.use (t : MapTask) : Use := .map t.partId

def Completion.use : Completion → Use
  | .kFinishMap p _ => .map p
  | .kFinishJoin p _ _ => .update p
  | .kFinishFetch p _ => .fetch p
  | .kFinishCheckpoint p => .update p

/-- The partition that is used is here. -/
def Use.Local (c : Spec) : Use → Prop
  | .update p => p ∈ c.partitions c.updateCollectionId
  | .map p => p ∈ c.partitions c.mapCollectionId
  | .fetch p => p ∈ c.partitions c.fetchCollectionId

namespace PlanController

variable {c : Spec} {s s' s₁ : PlanController β} {i : Nat} {p : Int} {e : VersionedJoinMeta β}
  {t : FetchTask β} {rest : List (VersionedJoinMeta β)}

/-- Submitted tasks, completions not yet processed, grants not yet released. -/
def inUse (s : PlanController β) : List Use :=
  s.fetchExecutor.map FetchTask.use ++ (s.mapExecutor.map MapTask.use ++
    (s.workQueue.map Completion.use ++ s.localGrants.map Use.fetch))

/-! ## How `inUse` changes -/

theorem inUse_submit (s : PlanController β) (t : FetchTask β) :
    inUse { s with fetchExecutor := s.fetchExecutor ++ [t] } ~ t.use :: s.inUse := by
  simp only [inUse, map_append, map_cons, map_nil, append_assoc,
    singleton_append]
  exact perm_middle

theorem inUse_submitMap (s : PlanController β) (t : MapTask) :
    inUse { s with mapExecutor := s.mapExecutor ++ [t] } ~ t.use :: s.inUse := by
  simp only [inUse, map_append, map_cons, map_nil, append_assoc,
    singleton_append]
  exact (perm_middle.append_left _).trans perm_middle

theorem inUse_pushMsg (s : PlanController β) (e : Completion) :
    inUse { s with workQueue := s.workQueue ++ [e] } ~ e.use :: s.inUse := by
  simp only [inUse, map_append, map_cons, map_nil, append_assoc,
    singleton_append]
  exact ((perm_middle.append_left _).append_left _).trans
    ((perm_middle.append_left _).trans perm_middle)

theorem inUse_eraseTask (s : PlanController β) {i : Nat} (hi : s.fetchExecutor[i]? = some t) :
    s.inUse ~ t.use :: inUse { s with fetchExecutor := s.fetchExecutor.eraseIdx i } :=
  ((perm_cons_of_getElem? hi).map _).append_right _

theorem inUse_eraseMap (s : PlanController β) {t : MapTask} (hi : s.mapExecutor[i]? = some t) :
    s.inUse ~ t.use :: inUse { s with mapExecutor := s.mapExecutor.eraseIdx i } :=
  ((((perm_cons_of_getElem? hi).map _).append_right _).append_left _).trans
    perm_middle

theorem inUse_setMap (s : PlanController β) {t t' : MapTask} (hi : s.mapExecutor[i]? = some t)
    (ht : t'.use = t.use) : inUse { s with mapExecutor := s.mapExecutor.set i t' } ~ s.inUse := by
  have hset := (set_perm_cons_eraseIdx (List.getElem?_eq_some_iff.mp hi).1 t').map MapTask.use
  have hold := (perm_cons_of_getElem? hi).map MapTask.use
  rw [map_cons, ht] at hset
  exact ((hset.trans hold.symm).append_right _).append_left _

theorem inUse_takeMsg (s : PlanController β) {e : Completion} (hi : s.workQueue[i]? = some e) :
    s.inUse ~ e.use :: (takeMsg s i).inUse :=
  (((((perm_cons_of_getElem? hi).map _).append_right _).append_left _).append_left _).trans
    ((perm_middle.append_left _).trans perm_middle)

theorem inUse_takeGrant (s : PlanController β) (hi : s.localGrants[i]? = some p) :
    s.inUse ~ .fetch p :: (takeGrant s i).inUse :=
  (((((perm_cons_of_getElem? hi).map _).append_left _).append_left _).append_left _).trans
    (((perm_middle.append_left _).append_left _).trans
      ((perm_middle.append_left _).trans perm_middle))

/-- A completion takes the place of its task. -/
theorem inUse_taskDone (s : PlanController β) {e : Completion} (hi : s.fetchExecutor[i]? = some t)
    (he : e.use = t.use) : (taskDone s i e).inUse ~ s.inUse :=
  (inUse_pushMsg { s with fetchExecutor := s.fetchExecutor.eraseIdx i } e).trans
    (he ▸ (inUse_eraseTask s hi).symm)

theorem inUse_mapDone (s : PlanController β) {t : MapTask} (hi : s.mapExecutor[i]? = some t)
    (b : Bool) :
    inUse { s with
      mapExecutor := s.mapExecutor.eraseIdx i
      workQueue := s.workQueue ++ [.kFinishMap t.partId b] } ~ s.inUse :=
  (inUse_pushMsg { s with mapExecutor := s.mapExecutor.eraseIdx i } _).trans
    (inUse_eraseMap s hi).symm

theorem mem_inUse_of_msg {e : Completion} (hi : s.workQueue[i]? = some e) : e.use ∈ s.inUse :=
  (inUse_takeMsg s hi).mem_iff.mpr mem_cons_self

theorem mem_inUse_of_task (hi : s.fetchExecutor[i]? = some t) : t.use ∈ s.inUse :=
  (inUse_eraseTask s hi).mem_iff.mpr mem_cons_self

theorem inUse_runFetchRequest (s : PlanController β) (f : FetchReq) :
    (runFetchRequest c s f).inUse ~ .fetch f.partId :: s.inUse := by
  by_cases hg : IsGrant f
  · have hp : inUse { s with localGrants := s.localGrants ++ [f.partId] } ~
        .fetch f.partId :: s.inUse := by
      simp only [inUse, map_append, map_cons, map_nil, ← append_assoc]
      exact (perm_append_singleton _ _).trans (by simp)
    simpa [inUse, runFetchRequest, addRunningFetch, hg] using hp
  · have hp := inUse_submit s (.fetch f (fetchVersion c s f.partId))
    simp only [runFetchRequest, hg, if_false]
    exact hp

/-! ## What is in a queue after a change -/

section Queues

variable {s : PlanController β} {p q v w : Int} {e e' : VersionedJoinMeta β} {m m' : JoinMeta β}
  {l : List (VersionedJoinMeta β)}

theorem mem_setWaiting (h : e ∈ (s.setWaiting q l).waitingUpdates p) :
    (p = q ∧ e ∈ l) ∨ e ∈ s.waitingUpdates p := by
  by_cases hp : p = q
  · subst hp
    simp only [setWaiting, update_self] at h
    exact .inl ⟨rfl, h⟩
  · simp only [setWaiting, update_of_ne hp] at h
    exact .inr h

theorem mem_pushWaiting (h : e' ∈ (s.pushWaiting q e).waitingUpdates p) :
    (p = q ∧ e' = e) ∨ e' ∈ s.waitingUpdates p := by
  rcases mem_setWaiting h with ⟨rfl, hl⟩ | hl
  · rcases mem_append.mp hl with hl | hl
    · exact .inr hl
    · exact .inl ⟨rfl, mem_singleton.mp hl⟩
  · exact .inr hl

theorem mem_popWaiting (hq : s.waitingUpdates q = e :: l)
    (h : e' ∈ (s.setWaiting q l).waitingUpdates p) : e' ∈ s.waitingUpdates p := by
  rcases mem_setWaiting h with ⟨rfl, hl⟩ | hl
  · exact hq ▸ mem_cons_of_mem _ hl
  · exact hl

theorem mem_pushPending (h : m' ∈ (s.pushPending m).pendingUpdates p v) :
    (m.At p v ∧ m' = m) ∨ m' ∈ s.pendingUpdates p v := by
  by_cases hp : p = m.partId
  · subst hp
    by_cases hv : v = m.version
    · subst hv
      simp only [pushPending, update_self, mem_append, mem_singleton] at h
      rcases h with h | rfl
      · exact .inr h
      · exact .inl ⟨⟨rfl, rfl⟩, rfl⟩
    · simp only [pushPending, update_self, update_of_ne hv] at h
      exact .inr h
  · simp only [pushPending, update_of_ne hp] at h
    exact .inr h

theorem mem_pending_of_releasePending (hm : m ∈ (releasePending s q w).pendingUpdates p v) :
    m ∈ s.pendingUpdates p v := by
  by_cases hp : p = q
  · subst hp
    by_cases hv : v = w
    · subst hv
      simp [releasePending] at hm
    · simpa [releasePending, update_of_ne hv] using hm
  · simpa [releasePending, update_of_ne hp] using hm

theorem mem_waiting_of_releasePending (h : e ∈ (releasePending s q w).waitingUpdates p) :
    (p = q ∧ ∃ m ∈ s.pendingUpdates q w, e = .join m) ∨ e ∈ s.waitingUpdates p := by
  have h : e ∈ (s.setWaiting q (s.waitingUpdates q ++
    (s.pendingUpdates q w).map .join)).waitingUpdates p := h
  rcases mem_setWaiting h with ⟨rfl, hl⟩ | hl
  · rcases mem_append.mp hl with hl | hl
    · exact .inr hl
    · obtain ⟨m, hm, rfl⟩ := mem_map.mp hl
      exact .inl ⟨rfl, m, hm, rfl⟩
  · exact .inr hl

end Queues

/-! ## Layout -/

/-- Every queue holds what its key says, and only for local partitions. -/
structure Layout (c : Spec) (s : PlanController β) : Prop where
  mapKeys : s.mapVersions.keys = c.partitions c.mapCollectionId
  updateKeys : s.updateVersions.keys = c.partitions c.updateCollectionId
  waiting : ∀ p, ∀ e ∈ s.waitingUpdates p, e.partId = p ∧ p ∈ c.partitions c.updateCollectionId
  waitingFetch : ∀ p f, .fetch f ∈ s.waitingUpdates p →
    c.fetchCollectionId = c.updateCollectionId ∧ f.collectionId = c.fetchCollectionId
  pending : ∀ p v, ∀ m ∈ s.pendingUpdates p v,
    m.partId = p ∧ m.version = v ∧ p ∈ c.partitions c.updateCollectionId
  inUse : ∀ u ∈ s.inUse, u.Local c
  noMigration : ∀ p, s.stopUpdateingPartitions p = none

/-- The part of it that does not depend on which partitions are local. -/
structure Placed (s : PlanController β) : Prop where
  waiting : ∀ p, ∀ e ∈ s.waitingUpdates p, e.partId = p
  pending : ∀ p v, ∀ m ∈ s.pendingUpdates p v, m.At p v

theorem Layout.placed (h : Layout c s) : Placed s where
  waiting p e he := (h.waiting p e he).1
  pending p v m hm := ⟨(h.pending p v m hm).1, (h.pending p v m hm).2.1⟩

theorem layout_setup : Layout c (setup c : PlanController β) where
  mapKeys := rfl
  updateKeys := rfl
  waiting _ _ h := by simp [setup] at h
  waitingFetch _ _ h := by simp [setup] at h
  pending _ _ _ h := by simp [setup] at h
  inUse _ h := by simp [inUse, setup] at h
  noMigration _ := rfl

/-! How the queues of a layout change. -/

theorem Layout.pushWaiting {s : PlanController β} (h : Layout c s) {e : VersionedJoinMeta β}
    (hp : e.partId ∈ c.partitions c.updateCollectionId)
    (hf : ∀ f, e = .fetch f →
      c.fetchCollectionId = c.updateCollectionId ∧ f.collectionId = c.fetchCollectionId) :
    Layout c (s.pushWaiting e.partId e) := by
  refine { h with waiting := fun q e' he' => ?_, waitingFetch := fun q f hf' => ?_ }
  · rcases mem_pushWaiting he' with ⟨rfl, rfl⟩ | he'
    · exact ⟨rfl, hp⟩
    · exact h.waiting q e' he'
  · rcases mem_pushWaiting hf' with ⟨-, he⟩ | hf'
    · exact hf f he.symm
    · exact h.waitingFetch q f hf'

/-- The queue loses its first entry. -/
theorem Layout.popWaiting (h : Layout c s) (hq : s.waitingUpdates p = e :: rest) :
    Layout c (s.setWaiting p rest) :=
  { h with
    waiting := fun q e' he' => h.waiting q e' (mem_popWaiting hq he')
    waitingFetch := fun q f hf => h.waitingFetch q f (mem_popWaiting hq hf) }

theorem Layout.pushPending (h : Layout c s) {m : JoinMeta β}
    (hp : m.partId ∈ c.partitions c.updateCollectionId) : Layout c (s.pushPending m) := by
  refine { h with pending := fun p v m' hm' => ?_ }
  rcases mem_pushPending hm' with ⟨⟨rfl, rfl⟩, rfl⟩ | hm'
  · exact ⟨rfl, rfl, hp⟩
  · exact h.pending p v m' hm'

theorem Layout.releasePending (h : Layout c s) (p v : Int) : Layout c (releasePending s p v) := by
  refine { h with
    waiting := fun q e he => ?_
    waitingFetch := fun q f hf => ?_
    pending := fun _ _ _ hm => h.pending _ _ _ (mem_pending_of_releasePending hm) }
  · rcases mem_waiting_of_releasePending he with ⟨rfl, m, hm, rfl⟩ | he
    · obtain ⟨hp, -, hl⟩ := h.pending _ _ _ hm
      exact ⟨hp, hl⟩
    · exact h.waiting q e he
  · rcases mem_waiting_of_releasePending hf with ⟨-, m, -, he⟩ | hf
    · cases he
    · exact h.waitingFetch q f hf

/-- A local partition is taken into use. -/
theorem local_of_perm_cons (h : Layout c s) {u : Use} (hu : s'.inUse ~ u :: s.inUse)
    (hl : u.Local c) : ∀ u' ∈ s'.inUse, u'.Local c := by
  intro u' hu'
  rcases mem_cons.mp (hu.mem_iff.mp hu') with rfl | hmem
  · exact hl
  · exact h.inUse u' hmem

/-- A use ends. -/
theorem local_of_cons_perm (h : Layout c s) {u : Use} (hu : s.inUse ~ u :: s'.inUse) :
    ∀ u' ∈ s'.inUse, u'.Local c :=
  fun u' hu' => h.inUse u' (hu.mem_iff.mpr (mem_cons_of_mem _ hu'))

theorem local_of_perm (h : Layout c s) (hu : s'.inUse ~ s.inUse) : ∀ u' ∈ s'.inUse, u'.Local c :=
  fun u' hu' => h.inUse u' (hu.mem_iff.mp hu')

theorem Layout.takeMsg (h : Layout c s) {e : Completion} (hi : s.workQueue[i]? = some e) :
    Layout c (takeMsg s i) :=
  { h with inUse := local_of_cons_perm h (inUse_takeMsg s hi) }

theorem Layout.takeGrant (h : Layout c s) (hi : s.localGrants[i]? = some p) :
    Layout c (takeGrant s i) :=
  { h with inUse := local_of_cons_perm h (inUse_takeGrant s hi) }

theorem Layout.runFetchRequest (h : Layout c s) (f : FetchReq)
    (hp : f.partId ∈ c.partitions c.fetchCollectionId) : Layout c (runFetchRequest c s f) :=
  { h with inUse := local_of_perm_cons h (inUse_runFetchRequest s f) hp }

theorem Layout.completeVersion (h : Layout c s) (v : Int)
    (hp : p ∈ c.partitions c.updateCollectionId) : Layout c (completeVersion s p v) :=
  { h with
    updateKeys := by
      have hk : p ∈ s.updateVersions.keys := h.updateKeys ▸ hp
      rw [← h.updateKeys]
      exact Table.keys_set_of_mem _ _ hk }

theorem Layout.mapDone (h : Layout c s) (p : Int) : Layout c (mapDone s p) :=
  { h with
    noMigration := fun q => by simp [PlanController.mapDone, h.noMigration] }

theorem Layout.countMap (h : Layout c s) (hp : p ∈ s.mapVersions.keys) :
    Layout c (countMap c s p) :=
  { h with
    mapKeys := by
      rw [← h.mapKeys]
      exact Table.keys_set_of_mem _ _ hp }

theorem layout_head {a : Action β} (h : Layout c s) (hh : Head c s a s₁) : Layout c s₁ := by
  cases hh with
  | noop => exact h
  | bufferJoin m hk => exact { h with }
  | ignoreJoin m hk hj => exact { h with }
  | pendJoin m hk hj hc hv =>
    have h₁ : Layout c { s with received := s.received ++ [m] } := { h with }
    exact h₁.pushPending (h.updateKeys ▸ hk)
  | waitJoin m hk hj hv =>
    have h₁ : Layout c { s with received := s.received ++ [m] } := { h with }
    exact h₁.pushWaiting (e := .join m) (h.updateKeys ▸ hk) (fun f hf => by simp at hf)
  | runFetch f hp hf hr => exact h.runFetchRequest f hp
  | bufferFetch f hk => exact { h with }
  | waitFetch f hk hf hc hr =>
    refine h.pushWaiting (e := .fetch f) (h.updateKeys ▸ hk) (fun f' hf' => ?_)
    cases hf'
    exact ⟨hc, hf⟩
  | releaseFetch i p hi => exact { h.takeGrant hi with }
  | updateVersion v hlt hv => exact { h with }
  | abortBegin i t hi hs => simp [h.noMigration] at hs
  | beginMap i t hi => exact { h with inUse := local_of_perm h (inUse_setMap s hi rfl) }
  | abortEnd i t hi hs => simp [h.noMigration] at hs
  | endMap i t hi hs => exact { h with inUse := local_of_perm h (inUse_mapDone s hi true) }
  | execJoin i m hi => exact { h with inUse := local_of_perm h (inUse_taskDone s hi rfl) }
  | execCheckpoint i p iter hi =>
    exact { h with inUse := local_of_perm h (inUse_taskDone s hi rfl) }
  | execFetch i f v hi => exact { h with inUse := local_of_perm h (inUse_taskDone s hi rfl) }
  | finishMapGone i p b hi hk => exact (h.takeMsg hi).mapDone p
  | finishMap i p b hi hk hc => exact ((h.takeMsg hi).mapDone p).countMap hk
  | finishMapJoin i p b hi hk hc =>
    exact (((h.takeMsg hi).mapDone p).countMap hk).releasePending _ _
  | trackJoin i p v ups hi hn => exact { h.takeMsg hi with }
  | complete i p v ups hi hn =>
    have hp : p ∈ c.partitions c.updateCollectionId := h.inUse _ (mem_inUse_of_msg hi)
    have h₁ : Layout c (trackJoin (takeMsg s i) p v ups) :=
      { h.takeMsg hi with }
    exact { h₁.completeVersion v hp with }
  | completeCheckpoint i p v ups hi hn =>
    have hp : p ∈ c.partitions c.updateCollectionId := h.inUse _ (mem_inUse_of_msg hi)
    have h₁ : Layout c (trackJoin (takeMsg s i) p v ups) :=
      { h.takeMsg hi with }
    have h₂ := h₁.completeVersion v hp
    exact { h₂ with inUse := local_of_perm_cons h₂ (inUse_submit _ _) hp }
  | finishFetch i p u hi => exact { h.takeMsg hi with }
  | finishCheckpoint i p hi hr => exact { h.takeMsg hi with }

theorem layout_tail (h : Layout c s) (ht : Tail c s s') : Layout c s' := by
  cases ht with
  | launch p hr hp => exact { h with inUse := local_of_perm_cons h (inUse_submitMap s _) hp }
  | popDuplicate p m rest hq hb hj => exact { h.popWaiting hq with }
  | popFetch p f rest hq hb =>
    have hmem : VersionedJoinMeta.fetch f ∈ s.waitingUpdates p := hq ▸ mem_cons_self
    obtain ⟨hfp, hp⟩ := h.waiting p _ hmem
    obtain ⟨hc, -⟩ := h.waitingFetch p f hmem
    have hfp : f.partId = p := hfp
    exact (h.popWaiting hq).runFetchRequest f (by rw [hfp, hc]; exact hp)
  | popJoin p m rest hq hb hj hr =>
    obtain ⟨hmp, hp⟩ := h.waiting p (.join m) (hq ▸ mem_cons_self)
    have hmp : m.partId = p := hmp
    have h₁ := h.popWaiting hq
    have hl : (Use.update m.partId).Local c := hmp ▸ hp
    exact { h₁ with inUse := local_of_perm_cons h₁ (inUse_submit _ (.join m)) hl }

theorem layout_stable : Stable c (Layout c : PlanController β → Prop) where
  start := layout_setup
  head _ _ _ h hh := layout_head h hh
  tail _ _ h ht := layout_tail h ht

/-! ## Placement -/

theorem Placed.setWaiting (h : Placed s) {q : List (VersionedJoinMeta β)}
    (hq : ∀ e ∈ q, e.partId = p) : Placed (s.setWaiting p q) := by
  refine { h with waiting := fun p' e he => ?_ }
  rcases mem_setWaiting he with ⟨rfl, hl⟩ | hl
  · exact hq e hl
  · exact h.waiting p' e hl

theorem Placed.pushWaiting (h : Placed s) (e : VersionedJoinMeta β) :
    Placed (s.pushWaiting e.partId e) := by
  refine { h with waiting := fun p' e' he' => ?_ }
  rcases mem_pushWaiting he' with ⟨rfl, rfl⟩ | he'
  · rfl
  · exact h.waiting p' e' he'

theorem Placed.popWaiting (h : Placed s) (hq : s.waitingUpdates p = e :: rest) :
    Placed (s.setWaiting p rest) :=
  { h with waiting := fun q e' he' => h.waiting q e' (mem_popWaiting hq he') }

theorem Placed.pushPending (h : Placed s) (m : JoinMeta β) : Placed (s.pushPending m) := by
  refine { h with pending := fun p v m' hm' => ?_ }
  rcases mem_pushPending hm' with ⟨hat, rfl⟩ | hm'
  · exact hat
  · exact h.pending p v m' hm'

theorem Placed.releasePending (h : Placed s) (p v : Int) : Placed (releasePending s p v) := by
  refine ⟨fun q e he => ?_, fun _ _ _ hm => h.pending _ _ _ (mem_pending_of_releasePending hm)⟩
  rcases mem_waiting_of_releasePending he with ⟨rfl, m, hm, rfl⟩ | he
  · exact (h.pending _ _ _ hm).1
  · exact h.waiting q e he

theorem placed_head {a : Action β} (h : Placed s) (hh : Head c s a s₁) : Placed s₁ := by
  cases hh with
  | pendJoin m hk hj hc hv =>
    have h₁ : Placed { s with received := s.received ++ [m] } := { h with }
    exact h₁.pushPending m
  | waitJoin m hk hj hv =>
    have h₁ : Placed { s with received := s.received ++ [m] } := { h with }
    exact h₁.pushWaiting (.join m)
  | waitFetch f hk hf hc hr => exact h.pushWaiting (.fetch f)
  | finishMapJoin i p b hi hk hc =>
    have h₁ : Placed (countMap c (mapDone
      (takeMsg s i) p) p) := { h with }
    exact h₁.releasePending _ _
  | _ => exact { h with }

theorem placed_tail (h : Placed s) (ht : Tail c s s') : Placed s' := by
  cases ht with
  | launch p hr hp => exact { h with }
  | popDuplicate p m rest hq hb hj => exact { h.popWaiting hq with }
  | popFetch p f rest hq hb => exact { h.popWaiting hq with }
  | popJoin p m rest hq hb hj hr => exact { h.popWaiting hq with }

end PlanController

end Tangram
