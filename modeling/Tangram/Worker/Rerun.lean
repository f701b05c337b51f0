import Tangram.Worker.DelayedCombiner
import Tangram.Worker.Progress

/-!
# A node maps a version of a partition once

`Maps` counts the versions of a partition from 0.  A node that takes over a map
partition in the middle of a plan starts at a later version, so here it is only
said that no version is mapped twice (`mapping_step`, `MapsOnce.adopt`).

Then no output reaches the delayed combiner twice, and the place of a batch in
the stream store is free when it is sent, whatever was sent before
(`Outbox.runTask_ne_insert`, `Outbox.addMapOutput_ne_insert`).
-/

namespace Tangram

open StepRun Relation List

variable {i : Nat} {u v : Int}

namespace PlanController

variable {β : Type} {c c' : Spec} {s s' : PlanController β} {a : Action β} {t : MapTask}

/-! ## Maps -/

structure MapsOnce (c : Spec) (s : PlanController β) : Prop where
  here : ∀ p ∈ c.partitions c.mapCollectionId, p ∈ s.mapVersions.keys
  running : ∀ p ∈ s.runningMaps, p ∈ s.mapVersions.keys
  task : ∀ t ∈ s.mapExecutor, t.version = s.mapVersions.val t.partId
  mapped : ∀ x ∈ s.mapped, x.1 ∈ s.mapVersions.keys ∧
    x.2 < s.mapVersions.val x.1 + s.unfinished x.1
  once : s.mapped.Nodup

theorem mapsOnce_setup : MapsOnce c (setup c : PlanController β) where
  here _ hp := hp
  running _ hp := by simp [setup] at hp
  task _ ht := by simp [setup] at ht
  mapped _ hx := by simp [setup] at hx
  once := nodup_nil

theorem Excl.mapping {p : Int} (hx : Excl c s p) (hu : .map p ∈ s.inUse) : p ∈ s.runningMaps := by
  by_contra hno
  have hcount := hx.maps
  rw [if_neg hno, count_eq_zero] at hcount
  exact hcount hu

theorem MapsOnce.pushMsg (h : MapsOnce c s) (e : Completion) :
    MapsOnce c { s with workQueue := s.workQueue ++ [e] } := by
  refine { h with mapped := fun x hx => ?_ }
  obtain ⟨hk, hlt⟩ := h.mapped x hx
  refine ⟨hk, ?_⟩
  rw [unfinished_push]
  show x.2 < s.mapVersions.val x.1 + _
  omega

theorem MapsOnce.takeMsg (h : MapsOnce c s) {e : Completion} (hi : s.workQueue[i]? = some e)
    (he : ∀ p, e.use ≠ .map p) : MapsOnce c (takeMsg s i) := by
  refine { h with mapped := fun x hx => ?_ }
  obtain ⟨hk, hlt⟩ := h.mapped x hx
  refine ⟨hk, ?_⟩
  have hun := unfinished_takeMsg hi x.1
  rw [if_neg (he x.1)] at hun
  show x.2 < s.mapVersions.val x.1 + _
  omega

theorem MapsOnce.endMap (hx : ∀ p, Excl c s p) (h : MapsOnce c s) (hi : s.mapExecutor[i]? = some t) :
    MapsOnce c { s with
      mapExecutor := s.mapExecutor.eraseIdx i
      mapped := s.mapped ++ [(t.partId, t.version)]
      workQueue := s.workQueue ++ [.kFinishMap t.partId true] } := by
  have hmem := mem_of_getElem? hi
  have hver := h.task t hmem
  have hnone := no_second_map (hx t.partId) hmem rfl
  have hkey : t.partId ∈ s.mapVersions.keys := by
    apply h.running
    exact (hx t.partId).mapping ((inUse_eraseMap s hi).mem_iff.mpr mem_cons_self)
  have h₁ := h.pushMsg (.kFinishMap t.partId true)
  refine ⟨h.here, h.running, fun t' ht' => h.task t' (mem_of_mem_eraseIdx ht'),
    fun x hx' => ?_, ?_⟩
  · rcases mem_append.mp hx' with hx' | hx'
    · exact h₁.mapped x hx'
    · rw [mem_singleton.mp hx']
      refine ⟨hkey, ?_⟩
      have hun := unfinished_push s (.kFinishMap t.partId true) t.partId
      simp only [Completion.use, if_true] at hun
      show t.version < s.mapVersions.val t.partId +
        (unfinished { s with workQueue := s.workQueue ++ [.kFinishMap t.partId true] } t.partId : Nat)
      omega
  · -- a version that has been mapped is below the one of the task
    refine List.Nodup.append h.once (nodup_singleton _) ?_
    rw [disjoint_singleton]
    intro hold
    have hlt := (h.mapped _ hold).2
    simp only [hnone] at hlt
    omega

theorem MapsOnce.count (hx : ∀ p, Excl c s p) (h : MapsOnce c s) {q : Int} {b : Bool}
    (hi : s.workQueue[i]? = some (.kFinishMap q b)) (hk : q ∈ s.mapVersions.keys) :
    MapsOnce c (countMap c (mapDone (PlanController.takeMsg s i) q) q) := by
  have hun := unfinished_takeMsg hi
  simp only [Completion.use, Use.map.injEq] at hun
  have hkeys : (s.mapVersions.set q (s.mapVersions.val q + 1)).keys = s.mapVersions.keys :=
    Table.keys_set_of_mem _ _ hk
  have hval := Table.val_set s.mapVersions q
  refine ⟨fun p hp => ?_, fun p hp => ?_, fun t ht => ?_, fun x hx' => ?_, h.once⟩
  · show p ∈ (s.mapVersions.set q (s.mapVersions.val q + 1)).keys
    rw [hkeys]
    exact h.here p hp
  · show p ∈ (s.mapVersions.set q (s.mapVersions.val q + 1)).keys
    rw [hkeys]
    exact h.running p (Finset.mem_of_mem_erase hp)
  · -- nobody maps `q` while its completion is in the queue
    have hne : t.partId ≠ q := by
      intro he
      have hnone := no_second_map (hx q) ht he
      have := hun q
      rw [if_pos rfl] at this
      omega
    show t.version = (s.mapVersions.set q (s.mapVersions.val q + 1)).val t.partId
    rw [hval, if_neg hne]
    exact h.task t ht
  · obtain ⟨hkey, hlt⟩ := h.mapped x hx'
    refine ⟨hkeys ▸ hkey, ?_⟩
    have hun := hun x.1
    show x.2 < (s.mapVersions.set q (s.mapVersions.val q + 1)).val x.1 +
      ((PlanController.takeMsg s i).unfinished x.1 : Nat)
    rw [hval]
    by_cases hq : x.1 = q
    · rw [if_pos hq]
      rw [if_pos hq.symm] at hun
      rw [hq] at hlt hun ⊢
      omega
    · rw [if_neg hq]
      rw [if_neg (Ne.symm hq)] at hun
      omega

/-- A map that is aborted leaves the executor; its version is not used up. -/
theorem MapsOnce.abortMap (h : MapsOnce c s) (i : Nat) (t : MapTask) :
    MapsOnce c (abortMap s i t) :=
  { h.pushMsg (.kFinishMap t.partId false) with
    task := fun t' ht' => h.task t' (mem_of_mem_eraseIdx ht') }

theorem mapsOnce_head (hx : ∀ p, Excl c s p) (h : MapsOnce c s) (hh : Head c s a s') :
    MapsOnce c s' := by
  cases hh with
  | abortBegin i t hi hs => exact h.abortMap i t
  | beginMap i t hi =>
    refine { h with task := fun t' ht' => ?_ }
    rcases mem_or_eq_of_mem_set ht' with ht' | rfl
    · exact h.task t' ht'
    · exact h.task t (mem_of_getElem? hi)
  | abortEnd i t hi hs => exact h.abortMap i t
  | endMap i t hi hs => exact h.endMap hx hi
  | execJoin i m hi => exact { h.pushMsg (.kFinishJoin m.partId m.version m.ids) with }
  | execCheckpoint i p iter hi => exact { h.pushMsg (.kFinishCheckpoint p) with }
  | execFetch i f v hi => exact { h.pushMsg (.kFinishFetch f.partId f.upstreamPartId) with }
  | finishMapGone i p b hi hk =>
    exact absurd (h.running p ((hx p).mapping (mem_inUse_of_msg hi))) hk
  | finishMap i p b hi hk hc => exact h.count hx hi hk
  | finishMapJoin i p b hi hk hc => exact { h.count hx hi hk with }
  | trackJoin i p v ups hi hn => exact { h.takeMsg hi (by simp [Completion.use]) with }
  | complete i p v ups hi hn => exact { h.takeMsg hi (by simp [Completion.use]) with }
  | completeCheckpoint i p v ups hi hn => exact { h.takeMsg hi (by simp [Completion.use]) with }
  | finishFetch i p u hi => exact { h.takeMsg hi (by simp [Completion.use]) with }
  | finishCheckpoint i p hi hr => exact { h.takeMsg hi (by simp [Completion.use]) with }
  | _ => exact { h with }

theorem mapsOnce_tail (h : MapsOnce c s) (ht : Tail c s s') : MapsOnce c s' := by
  cases ht with
  | launch p hr hp =>
    refine { h with running := fun q hq => ?_, task := fun t ht => ?_ }
    · rcases Finset.mem_insert.mp hq with rfl | hq
      · exact h.here q hp
      · exact h.running q hq
    · rcases mem_append.mp ht with ht | ht
      · exact h.task t ht
      · rw [mem_singleton.mp ht]
  | _ => exact { h with }

/-- What a controller keeps about its maps, also if it takes over partitions. -/
structure Mapping (c : Spec) (s : PlanController β) : Prop where
  placed : Placed s
  excl : ∀ p, Excl c s p
  once : MapsOnce c s

theorem mapping_setup : Mapping c (setup c : PlanController β) :=
  ⟨layout_setup.placed, excl_setup, mapsOnce_setup⟩

theorem mapping_head (h : Mapping c s) (hh : Head c s a s') : Mapping c s' :=
  ⟨placed_head h.placed hh, excl_head h.excl hh, mapsOnce_head h.excl h.once hh⟩

theorem mapping_tails (h : Mapping c s) (ht : ReflTransGen (Tail c) s s') : Mapping c s' := by
  induction ht with
  | refl => exact h
  | tail _ ht ih =>
    exact ⟨placed_tail ih.placed ht, excl_tail ih.placed ih.excl ht, mapsOnce_tail ih.once ht⟩

theorem mapping_step (h : Mapping c s) (hstep : step c s a = .ok s') : Mapping c s' := by
  obtain ⟨s₁, hh, ht⟩ := step_head_tail hstep
  exact mapping_tails (mapping_head h hh) ht

/-- A step of the controller itself adds no map partition. -/
theorem mapKeys_step (hstep : step c s a = .ok s') : s'.mapVersions.keys = s.mapVersions.keys := by
  refine step_induct (P := fun t => t.mapVersions.keys = s.mapVersions.keys) hstep
    (fun s₁ hh => ?_) fun t u h ht => ?_
  · cases hh with
    | finishMap i p b hi hk hc => exact Table.keys_set_of_mem _ _ hk
    | finishMapJoin i p b hi hk hc => exact Table.keys_set_of_mem _ _ hk
    | _ => rfl
  · cases ht <;> exact h

theorem mapped_tails (ht : ReflTransGen (Tail c) s s') : s'.mapped = s.mapped := by
  induction ht with
  | refl => rfl
  | tail _ ht ih => cases ht <;> exact ih

/-- The map of a partition that runs is of a version that was not mapped before. -/
theorem Mapping.not_mapped (h : Mapping c s) (ht : t ∈ s.mapExecutor) :
    (t.partId, t.version) ∉ s.mapped := by
  intro hold
  have hlt := (h.once.mapped _ hold).2
  have hver := h.once.task t ht
  simp only [no_second_map (h.excl t.partId) ht rfl] at hlt
  omega

/-- `u` is taken over at version `v`. -/
def adopt (s : PlanController β) (u v : Int) : PlanController β :=
  { s with mapVersions := s.mapVersions.set u v }

/-- The books of a partition do not depend on which partitions are local. -/
theorem Excl.congr {p : Int} (h : Excl c s p) (hm : c'.mapCollectionId = c.mapCollectionId)
    (hu : c'.updateCollectionId = c.updateCollectionId)
    (hf : c'.fetchCollectionId = c.fetchCollectionId) : Excl c' s p where
  updates := h.updates
  maps := h.maps
  fetches := h.fetches
  noFetch hc := h.noFetch (by rw [← hf, ← hu]; exact hc)
  noMap hc := h.noMap (by rw [← hm, ← hu]; exact hc)

theorem Mapping.adopt (h : Mapping c s) (hu : u ∉ s.mapVersions.keys)
    (hm : c'.mapCollectionId = c.mapCollectionId)
    (hup : c'.updateCollectionId = c.updateCollectionId)
    (hf : c'.fetchCollectionId = c.fetchCollectionId)
    (hc : ∀ p ∈ c'.partitions c'.mapCollectionId, p = u ∨ p ∈ c.partitions c.mapCollectionId) :
    Mapping c' (s.adopt u v) := by
  have hold : ∀ p ∈ s.mapVersions.keys, p ∈ (s.mapVersions.set u v).keys :=
    fun p hp => Table.mem_keys_set.mpr (.inr hp)
  -- what is known of a partition is known of another one than `u`
  have hval : ∀ p ∈ s.mapVersions.keys, (s.mapVersions.set u v).val p = s.mapVersions.val p := by
    intro p hp
    exact Table.val_set_ne _ _ fun he => hu (he ▸ hp)
  refine ⟨{ h.placed with }, fun p => ?_, fun p hp => ?_, fun p hp => hold p (h.once.running p hp),
    fun t ht => ?_, fun x hx => ?_, h.once.once⟩
  · have hp : Excl c' s p := (h.excl p).congr hm hup hf
    exact { hp with }
  · rcases hc p hp with rfl | hp
    · exact Table.mem_keys_set.mpr (.inl rfl)
    · exact hold p (h.once.here p hp)
  · have hrun : t.partId ∈ s.runningMaps := by
      apply (h.excl t.partId).mapping
      simp only [inUse, mem_append, mem_map]
      exact .inr (.inl ⟨t, ht, rfl⟩)
    show t.version = (s.mapVersions.set u v).val t.partId
    rw [hval _ (h.once.running _ hrun)]
    exact h.once.task t ht
  · obtain ⟨hk, hlt⟩ := h.once.mapped x hx
    refine ⟨hold _ hk, ?_⟩
    show x.2 < (s.mapVersions.set u v).val x.1 + (s.unfinished x.1 : Nat)
    rw [hval _ hk]
    exact hlt

end PlanController

/-! ## The combiner -/

/-- An output that is counted once is in one message. -/
theorem tokensIn_unique {β : Type} {ms : List (JoinMeta β)} {p w u : Int}
    (hone : tokensIn ms p w u ≤ 1) {m m' : JoinMeta β} (hm : m ∈ ms) (hm' : m' ∈ ms)
    (hc : m.Covers p w u) (hc' : m'.Covers p w u) : m = m' := by
  have hle : ms.countP (·.Covers p w u) ≤ 1 := (countP_covers_le ms).trans hone
  have hmem : m ∈ ms.filter (·.Covers p w u) := mem_filter.mpr ⟨hm, decide_eq_true hc⟩
  have hmem' : m' ∈ ms.filter (·.Covers p w u) := mem_filter.mpr ⟨hm', decide_eq_true hc'⟩
  rw [countP_eq_length_filter] at hle
  have hlen : (ms.filter (·.Covers p w u)).length = 1 :=
    Nat.le_antisymm hle (length_pos_of_mem hmem)
  obtain ⟨a, ha⟩ := length_eq_one_iff.mp hlen
  rw [ha, mem_singleton] at hmem hmem'
  rw [hmem, hmem']

namespace DelayedCombiner

variable {K M O B : Type} {job : MapJoin K M O B} {n u v p : Int} {d d' : DelayedCombiner K M B}
  {gone : List (JoinMeta (List B))} {mapped : List (Int × Int)} {stream : List (K × M)}
  {key : Int × Int} {ids : List Int}

/-- Where the batches have come from: `gone` has left the node. -/
structure Posts (job : MapJoin K M O B) (gone : List (JoinMeta (List B)))
    (d : DelayedCombiner K M B) : Prop where
  /-- The stream store holds streams of batches that were sent. -/
  kept : ∀ p is w, d.streamStore (p, is, w) ≠ none →
    ∃ m ∈ gone ++ d.sent, m.localMode = true ∧ m.entry = ((p, w), is)
  /-- Without a timer there are no batches of several streams. -/
  single : job.combineTimeout ≤ 0 → (∀ key, d.store.val key = []) ∧
    (∀ t ∈ d.executor, t.2.length = 1) ∧ ∀ m ∈ gone ++ d.sent, m.ids.length = 1

theorem posts_init : Posts job [] (init : DelayedCombiner K M B) where
  kept _ _ _ h := absurd rfl h
  single _ := ⟨fun _ => rfl, by simp [init], by simp [init]⟩

theorem prepareMsgAndSend_store (h : prepareMsgAndSend job n d key ids stream = .ok d') :
    ∀ k, d'.streamStore k ≠ none →
      (job.owner key.1 = n ∧ k = (key.1, ids, key.2)) ∨ d.streamStore k ≠ none := by
  unfold prepareMsgAndSend at h
  split at h
  · next ho =>
    obtain ⟨_, _, h⟩ := bind_eq_ok.mp h
    cases h
    intro k hk
    by_cases he : k = (key.1, ids, key.2)
    · exact .inl ⟨ho, he⟩
    · exact .inr (by simpa only [Function.update_of_ne he] using hk)
  · cases h
    exact fun k hk => .inr hk

theorem Posts.prepareMsgAndSend (h : Posts job gone d)
    (hids : job.combineTimeout ≤ 0 → ids.length = 1)
    (hd : prepareMsgAndSend job n d key ids stream = .ok d') : Posts job gone d' := by
  obtain ⟨hs, he, bin, hsent⟩ := prepareMsgAndSend_sent hd
  refine ⟨fun p is w hk => ?_, fun ht => ?_⟩
  · rw [hsent, ← append_assoc]
    rcases prepareMsgAndSend_store hd _ hk with ⟨ho, hkey⟩ | hk
    · cases hkey
      exact ⟨_, mem_append_right _ mem_cons_self, decide_eq_true ho, rfl⟩
    · obtain ⟨m, hm, hentry⟩ := h.kept p is w hk
      exact ⟨m, mem_append_left _ hm, hentry⟩
  · obtain ⟨hstore, hexec, hsingle⟩ := h.single ht
    rw [hs, he, hsent, ← append_assoc]
    refine ⟨hstore, hexec, fun m hm => ?_⟩
    rcases mem_append.mp hm with hm | hm
    · exact hsingle m hm
    · rw [mem_singleton.mp hm]
      exact hids ht

theorem Posts.submit (h : Posts job gone d) {t : (Int × Int) × List (StreamPair K M)}
    (ht : job.combineTimeout ≤ 0 → t.2.length = 1) : Posts job gone (d.submit t) := by
  refine { h with single := fun h0 => ?_ }
  obtain ⟨hstore, hexec, hsingle⟩ := h.single h0
  refine ⟨hstore, fun t' ht' => ?_, hsingle⟩
  rcases mem_append.mp ht' with ht' | ht'
  · exact hexec t' ht'
  · rw [mem_singleton.mp ht']
    exact ht h0

theorem Posts.addStream (h : Posts job gone d) (hd : addStream job n d u v p stream = .ok d') :
    Posts job gone d' := by
  unfold DelayedCombiner.addStream at hd
  split at hd
  · exact h.prepareMsgAndSend (fun _ => rfl) hd
  · split at hd
    · cases hd
      exact h.submit fun _ => rfl
    · next hneg hzero =>
      -- with a timer nothing is said about the length of a batch
      have htimer : ¬ job.combineTimeout ≤ 0 := by omega
      simp only at hd
      split at hd
      · cases hd
        exact ⟨h.kept, fun h0 => absurd h0 htimer⟩
      · cases hd
        exact ⟨h.kept, fun h0 => absurd h0 htimer⟩

theorem Posts.periodicCombine (h : Posts job gone d) :
    Posts job gone (d.periodicCombine job) := by
  unfold DelayedCombiner.periodicCombine
  split
  · next hmode => exact ⟨h.kept, fun h0 => by omega⟩
  · exact h

theorem Posts.runTask [LinearOrder K] (h : Posts job gone d) (hd : runTask job n d i = .ok d') :
    Posts job gone d' := by
  unfold DelayedCombiner.runTask at hd
  split at hd
  · cases hd
    exact h
  · next task hi =>
    obtain ⟨_, _, hd⟩ := bind_eq_ok.mp hd
    have h₁ : Posts job gone { d with executor := d.executor.eraseIdx i } := by
      refine ⟨h.kept, fun h0 => ?_⟩
      obtain ⟨hstore, hexec, hsingle⟩ := h.single h0
      exact ⟨hstore, fun t ht => hexec t (mem_of_mem_eraseIdx ht), hsingle⟩
    refine h₁.prepareMsgAndSend (fun h0 => ?_) hd
    rw [length_map]
    exact (h.single h0).2.1 task (mem_of_getElem? hi)

theorem runTask_sent [LinearOrder K] (hd : runTask job n d i = .ok d') :
    d'.sent = d.sent ∨ ∃ task bin b, d.executor[i]? = some task ∧
      d'.sent = d.sent ++ [⟨task.1.1, task.1.2, .ext (task.2.map Prod.fst), b, bin⟩] := by
  unfold DelayedCombiner.runTask at hd
  split at hd
  · cases hd
    exact .inl rfl
  · next task hi =>
    obtain ⟨_, _, hd⟩ := bind_eq_ok.mp hd
    obtain ⟨-, -, bin, hsent⟩ := prepareMsgAndSend_sent hd
    exact .inr ⟨task, bin, _, hi, hsent⟩

/-- The outbox of a node: of what `mapped` lists, every output is on its way once at most. -/
structure Outbox (job : MapJoin K M O B) (gone : List (JoinMeta (List B)))
    (mapped : List (Int × Int)) (d : DelayedCombiner K M B) : Prop where
  posts : Posts job gone d
  once : ∀ p w u, d.carried p w u + tokensIn gone p w u ≤ mapped.count (u, w)

theorem outbox_init : Outbox job [] [] (init : DelayedCombiner K M B) :=
  ⟨posts_init, fun _ _ _ => Nat.le_refl 0⟩

theorem Outbox.congr (h : Outbox job gone mapped d) (hs : d'.store = d.store)
    (he : d'.executor = d.executor) (hsent : d'.sent = d.sent)
    (hstream : ∀ k, d'.streamStore k ≠ none → d.streamStore k ≠ none) :
    Outbox job gone mapped d' := by
  refine ⟨⟨fun p is w hk => ?_, ?_⟩, ?_⟩
  · rw [hsent]
    exact h.posts.kept p is w (hstream _ hk)
  · rw [hs, he, hsent]
    exact h.posts.single
  · unfold carried
    rw [hs, he, hsent]
    exact h.once

theorem Outbox.of_timeout {job' : MapJoin K M O B} (h : Outbox job gone mapped d)
    (ht : job'.combineTimeout = job.combineTimeout) : Outbox job' gone mapped d :=
  ⟨⟨h.posts.kept, fun h0 => h.posts.single (ht ▸ h0)⟩, h.once⟩

/-- A map output that waits in the store or in the executor is not sent yet. -/
theorem addMapOutput_sent {u v : Int} (hd : addMapOutput job n d u v = .ok d')
    (hmode : 0 < job.combineTimeout) : d'.sent = d.sent := by
  refine foldlM_induct (P := fun d₁ => d₁.sent = d.sent) job.updateParts rfl
    (fun d₁ p d₂ _ h₁ h₂ => ?_) hd
  unfold addStream at h₂
  rw [if_neg (by omega), if_neg (by omega)] at h₂
  simp only at h₂
  split at h₂ <;>
  · cases h₂
    exact h₁

theorem Outbox.addMapOutput (h : Outbox job gone mapped d) {u v : Int}
    (hd : addMapOutput job n d u v = .ok d') : Outbox job gone (mapped ++ [(u, v)]) d' := by
  refine ⟨foldlM_induct job.updateParts h.posts (fun d₁ p d₂ _ h₁ h₂ => h₁.addStream h₂) hd, ?_⟩
  intro p w x
  have hcarried := carried_foldlM job.updateParts (partsOf_nodup _) hd p w x
  have honce := h.once p w x
  rw [count_append, count_singleton, hcarried]
  simp only [beq_iff_eq, Prod.mk.injEq]
  by_cases hx : u = x ∧ v = w
  · rw [if_pos hx]
    split_ifs <;> omega
  · rw [if_neg hx, if_neg fun he => hx ⟨he.2.2, he.2.1⟩]
    omega

theorem Outbox.periodicCombine (h : Outbox job gone mapped d) :
    Outbox job gone mapped (d.periodicCombine job) :=
  ⟨h.posts.periodicCombine, fun p w u => by rw [carried_periodicCombine]; exact h.once p w u⟩

theorem Outbox.runTask [LinearOrder K] (h : Outbox job gone mapped d)
    (hd : runTask job n d i = .ok d') : Outbox job gone mapped d' :=
  ⟨h.posts.runTask hd, fun p w u => by rw [carried_runTask hd]; exact h.once p w u⟩

/-- A message arrives elsewhere. -/
theorem Outbox.leave (h : Outbox job gone mapped d) {m : JoinMeta (List B)}
    (hi : d.sent[i]? = some m) :
    Outbox job (gone ++ [m]) mapped { d with sent := d.sent.eraseIdx i } := by
  have hperm : ∀ m', m' ∈ (gone ++ [m]) ++ d.sent.eraseIdx i ↔ m' ∈ gone ++ d.sent := by
    intro m'
    simp only [mem_append, (perm_cons_of_getElem? hi).mem_iff (a := m'), mem_cons]
    tauto
  refine ⟨⟨fun p is w hk => ?_, fun h0 => ?_⟩, fun p w u => ?_⟩
  · obtain ⟨m', hm', he⟩ := h.posts.kept p is w hk
    exact ⟨m', (hperm m').mpr hm', he⟩
  · obtain ⟨hstore, hexec, hsingle⟩ := h.posts.single h0
    exact ⟨hstore, hexec, fun m' hm' => hsingle m' ((hperm m').mp hm')⟩
  · have honce := h.once p w u
    have htake := tokensIn_take (p := p) (w := w) (u := u) hi
    simp only [carried, tokensIn_append, tokensIn_cons, tokensIn_nil] at honce ⊢
    omega

/-- A message is lost whose stream is not in the stream store. -/
theorem Outbox.lose (h : Outbox job gone mapped d) {m : JoinMeta (List B)}
    (hi : d.sent[i]? = some m) (hm : m.localMode = false) :
    Outbox job gone mapped { d with sent := d.sent.eraseIdx i } := by
  have hsub : ∀ m' ∈ gone ++ d.sent.eraseIdx i, m' ∈ gone ++ d.sent := by
    intro m' hm'
    rcases mem_append.mp hm' with hm' | hm'
    · exact mem_append_left _ hm'
    · exact mem_append_right _ (mem_of_mem_eraseIdx hm')
  refine ⟨⟨fun p is w hk => ?_, fun h0 => ?_⟩, fun p w u => ?_⟩
  · obtain ⟨m', hm', hl, he⟩ := h.posts.kept p is w hk
    refine ⟨m', ?_, hl, he⟩
    rcases mem_append.mp hm' with hm' | hm'
    · exact mem_append_left _ hm'
    · rcases mem_cons.mp ((perm_cons_of_getElem? hi).mem_iff.mp hm') with rfl | hm'
      · rw [hm] at hl
        cases hl
      · exact mem_append_right _ hm'
  · obtain ⟨hstore, hexec, hsingle⟩ := h.posts.single h0
    exact ⟨hstore, hexec, fun m' hm' => hsingle m' (hsub m' hm')⟩
  · have honce := h.once p w u
    have htake := tokensIn_take (p := p) (w := w) (u := u) hi
    simp only [carried] at honce ⊢
    omega

theorem Outbox.sent_le (h : Outbox job gone mapped d) (p w u : Int) :
    tokensIn (gone ++ d.sent) p w u ≤ mapped.count (u, w) := by
  have honce := h.once p w u
  rw [tokensIn_append]
  unfold carried at honce
  omega

/-- A stream in the store was handed over by a map. -/
theorem Outbox.kept_pos (h : Outbox job gone mapped d) {p w : Int} {is : List Int}
    (hk : d.streamStore (p, is, w) ≠ none) {u : Int} (hu : u ∈ is) :
    0 < tokensIn (gone ++ d.sent) p w u := by
  obtain ⟨m, hm, -, he⟩ := h.posts.kept p is w hk
  obtain ⟨⟨hp, hw⟩, hids⟩ : (m.partId = p ∧ m.version = w) ∧ m.ids = is := by
    simpa [JoinMeta.entry] using he
  exact tokensIn_pos.mpr ⟨m, hm, ⟨hp, hw⟩, hids ▸ hu⟩

theorem prepareMsgAndSend_error {e : StreamCheck}
    (h : prepareMsgAndSend job n d key ids stream = .error e) :
    d.streamStore (key.1, ids, key.2) ≠ none := by
  unfold prepareMsgAndSend at h
  split at h
  · rcases bind_eq_error.mp h with h | ⟨_, -, h⟩
    · exact (check_eq_error.mp h).1
    · cases h
  · cases h

/-- **`Insert` finds its key free** when a batch is sent. -/
theorem Outbox.runTask_ne_insert [LinearOrder K] (h : Outbox job gone mapped d)
    (hnd : mapped.Nodup) (i : Nat) : DelayedCombiner.runTask job n d i ≠ .error .insert := by
  intro he
  unfold DelayedCombiner.runTask at he
  split at he
  · cases he
  · next task hi =>
    rcases bind_eq_error.mp he with he | ⟨_, hne, he⟩
    · cases (check_eq_error.mp he).2
    · obtain ⟨x, hx⟩ := exists_mem_of_ne_nil _ (check_eq_ok.mp hne)
      have hu : x.1 ∈ task.2.map Prod.fst := mem_map_of_mem hx
      have hfull := prepareMsgAndSend_error he
      have hkept := h.kept_pos hfull hu
      have hexec : 0 < Multimap.countIn Prod.fst task.1 x.1 d.executor :=
        Multimap.countIn_pos.mpr ⟨task, mem_of_getElem? hi, rfl, hu⟩
      -- it would be on its way twice, though it was mapped once
      have honce := h.once task.1.1 task.1.2 x.1
      have hcount := nodup_iff_count_le_one.mp hnd (x.1, task.1.2)
      rw [tokensIn_append] at hkept
      unfold carried at honce
      simp only [Prod.mk.eta] at honce
      omega

theorem addStream_error {e : StreamCheck} (h : addStream job n d u v p stream = .error e) :
    d.streamStore (p, [u], v) ≠ none := by
  unfold addStream at h
  split at h
  · exact prepareMsgAndSend_error h
  · split at h
    · cases h
    · simp only at h
      split at h <;> cases h

theorem addStream_streamStore (h : addStream job n d u v p stream = .ok d') {q : Int} (hq : q ≠ p)
    (hk : d.streamStore (q, [u], v) = none) : d'.streamStore (q, [u], v) = none := by
  unfold addStream at h
  split at h
  · by_contra hne
    rcases prepareMsgAndSend_store h _ hne with ⟨-, he⟩ | hold
    · cases he
      exact hq rfl
    · exact hold hk
  · split at h
    · cases h
      exact hk
    · simp only at h
      split at h <;>
      · cases h
        exact hk

/-- The streams of one map output have places of their own. -/
theorem foldlM_addStream_ne_error (ps : List Int) (hps : ps.Nodup) {out : Int → List (K × M)}
    (e : StreamCheck) (hfree : ∀ p ∈ ps, d.streamStore (p, [u], v) = none) :
    ps.foldlM (fun d p => addStream job n d u v p (out p)) d ≠ .error e := by
  induction ps generalizing d with
  | nil =>
    intro he
    cases he
  | cons p ps ih =>
    obtain ⟨hnot, hps⟩ := nodup_cons.mp hps
    rw [foldlM_cons]
    intro he
    rcases bind_eq_error.mp he with he | ⟨d₁, h₁, he⟩
    · exact addStream_error he (hfree p mem_cons_self)
    · refine ih hps (fun q hq => ?_) he
      refine addStream_streamStore h₁ (fun hqp => hnot (hqp ▸ hq)) ?_
      exact hfree q (mem_cons_of_mem _ hq)

/-- **`Insert` finds its key free** when a map output is sent at once. -/
theorem Outbox.addMapOutput_ne_insert (h : Outbox job gone mapped d) (hnew : (u, v) ∉ mapped) :
    DelayedCombiner.addMapOutput job n d u v ≠ .error .insert := by
  refine foldlM_addStream_ne_error job.updateParts (partsOf_nodup _) _ fun p _ => ?_
  by_contra hne
  have hpos := h.kept_pos hne mem_cons_self
  have hle := h.sent_le p v u
  rw [count_eq_zero_of_not_mem hnew] at hle
  omega

end DelayedCombiner

end Tangram
