import Tangram.Worker.Exclusion
import Tangram.Worker.Migration

/-!
# A site between its steps

What every step of a site keeps, whichever plan it runs: its queues and its updates are
about partitions that it has, and only a migration changes which those are.

    Sited job n x, act job n x a = .ok y  →  Sited job n y ∧ Steady x y          (Sited.act)

Then, handler by handler, what a migration does.
-/

namespace Tangram

open StepRun Relation Function

namespace PlanController

variable {β : Type} {c : Spec} {s s₁ s' : PlanController β} {a : Action β} {e : VersionedJoinMeta β}

/-- Updates run and wait only for partitions that are here. -/
structure Homed (s : PlanController β) : Prop where
  running : ∀ p, (s.runningUpdates p).isSome → p ∈ s.updateVersions.keys
  waiting : ∀ p, s.waitingUpdates p ≠ [] → p ∈ s.updateVersions.keys

/-- The same partitions are here, and the same are about to leave. -/
structure SameParts (s s₁ : PlanController β) : Prop where
  update : s₁.updateVersions.keys = s.updateVersions.keys
  map : s₁.mapVersions.keys = s.mapVersions.keys
  leaving : ∀ p, s₁.stopUpdateingPartitions p = some false ↔
    s.stopUpdateingPartitions p = some false

theorem SameParts.refl (s : PlanController β) : SameParts s s := ⟨rfl, rfl, fun _ => Iff.rfl⟩

theorem SameParts.trans {s₂ : PlanController β} (h : SameParts s s₁) (h' : SameParts s₁ s₂) :
    SameParts s s₂ :=
  ⟨h'.update.trans h.update, h'.map.trans h.map, fun p => (h'.leaving p).trans (h.leaving p)⟩

theorem leaving_mapDone (s : PlanController β) (q p : Int) :
    (mapDone s q).stopUpdateingPartitions p = some false ↔
      s.stopUpdateingPartitions p = some false := by
  unfold mapDone
  by_cases hq : s.stopUpdateingPartitions q = some true
  · simp only [hq, if_true]
    by_cases hp : p = q
    · subst hp
      simp [hq]
    · rw [update_of_ne hp]
  · simp only [hq, if_false]

/-- A completion of an update is about a partition that is here. -/
theorem Homed.of_msg (h : Homed s) (hx : ∀ p, Excl c s p) {i : Nat} {p v : Int} {ups : List Int}
    (hi : s.workQueue[i]? = some (.kFinishJoin p v ups)) : p ∈ s.updateVersions.keys :=
  h.running p ((hx p).running (mem_inUse_of_msg hi))

theorem sameParts_head (h : Homed s) (hx : ∀ p, Excl c s p) (hh : Head c s a s₁) :
    SameParts s s₁ := by
  cases hh with
  | finishMapGone i p b hi hk => exact ⟨rfl, rfl, leaving_mapDone _ p⟩
  | finishMap i p b hi hk hc | finishMapJoin i p b hi hk hc =>
    exact ⟨rfl, Table.keys_set_of_mem _ _ hk, leaving_mapDone (takeMsg s i) p⟩
  | complete i p v ups hi hn | completeCheckpoint i p v ups hi hn =>
    exact ⟨Table.keys_set_of_mem _ _ (h.of_msg hx hi), rfl, fun _ => Iff.rfl⟩
  | _ => exact ⟨rfl, rfl, fun _ => Iff.rfl⟩

theorem sameParts_tail (ht : Tail c s s') : SameParts s s' := by
  cases ht <;> exact ⟨rfl, rfl, fun _ => Iff.rfl⟩

theorem Homed.pushWaiting (h : Homed s) (he : e.partId ∈ s.updateVersions.keys) :
    Homed (s.pushWaiting e.partId e) where
  running := h.running
  waiting p hp := by
    by_cases hpe : p = e.partId
    · exact hpe ▸ he
    · simp only [PlanController.pushWaiting, setWaiting, update_of_ne hpe] at hp
      exact h.waiting p hp

/-- Updates that end free their partitions. -/
theorem Homed.of_running (h : Homed s) (hk : s₁.updateVersions.keys = s.updateVersions.keys)
    (hr : ∀ p, (s₁.runningUpdates p).isSome → p ∈ s.updateVersions.keys)
    (hw : s₁.waitingUpdates = s.waitingUpdates) : Homed s₁ where
  running p hp := hk ▸ hr p hp
  waiting p hp := hk ▸ h.waiting p (hw ▸ hp)

theorem Homed.released (h : Homed s) {q p : Int}
    (hp : (update s.runningUpdates q none p).isSome) : p ∈ s.updateVersions.keys := by
  by_cases hpq : p = q
  · subst hpq
    simp at hp
  · rw [update_of_ne hpq] at hp
    exact h.running p hp

theorem homed_head (h : Homed s) (hx : ∀ p, Excl c s p)
    (hu : ∀ p v, s.pendingUpdates p v = []) (hh : Head c s a s₁) : Homed s₁ := by
  have hsame := sameParts_head h hx hh
  cases hh with
  | waitJoin m hk hj hv =>
    have h₁ : Homed { s with received := s.received ++ [m] } := { h with }
    exact h₁.pushWaiting (e := .join m) hk
  | waitFetch f hk hf hc hr => exact h.pushWaiting (e := .fetch f) hk
  | finishMapJoin i p b hi hk hc =>
    -- nothing is pending in the controller itself
    refine h.of_running hsame.update h.running (funext fun q => ?_)
    have hnil : (takeMsg s i).pendingUpdates p (s.mapVersions.val p) = [] := hu _ _
    show update s.waitingUpdates p (s.waitingUpdates p ++
      ((takeMsg s i).pendingUpdates p (s.mapVersions.val p)).map .join) q = s.waitingUpdates q
    rw [hnil, List.map_nil, List.append_nil, update_eq_self]
  | trackJoin i p v ups hi hn => exact h.of_running rfl (fun q hq => h.released hq) rfl
  | complete i p v ups hi hn => exact h.of_running hsame.update (fun q hq => h.released hq) rfl
  | completeCheckpoint i p v ups hi hn =>
    refine h.of_running hsame.update (fun q hq => ?_) rfl
    by_cases hpq : q = p
    · exact hpq ▸ h.of_msg hx hi
    · have hq : (update (update s.runningUpdates p none) p (some (-1)) q).isSome :=
        hq
      rw [update_of_ne hpq] at hq
      exact h.released hq
  | finishCheckpoint i p hi hr => exact h.of_running rfl (fun q hq => h.released hq) rfl
  | _ => exact ⟨h.running, h.waiting⟩

theorem Homed.popWaiting (h : Homed s) {p : Int} {rest : List (VersionedJoinMeta β)}
    (hq : s.waitingUpdates p = e :: rest) :
    Homed (s.setWaiting p rest) where
  running := h.running
  waiting q hne := by
    by_cases hp : q = p
    · exact hp ▸ h.waiting p (by simp [hq])
    · simp only [setWaiting, update_of_ne hp] at hne
      exact h.waiting q hne

theorem homed_tail (hl : Placed s) (h : Homed s) (ht : Tail c s s') : Homed s' := by
  cases ht with
  | launch p hr hp => exact { h with }
  | popDuplicate p m rest hq hb hj => exact { h.popWaiting hq with }
  | popFetch p f rest hq hb => exact { h.popWaiting hq with }
  | popJoin p m rest hq hb hj hr =>
    have h₁ := h.popWaiting hq
    refine ⟨fun q hs => ?_, h₁.waiting⟩
    have hm : m.partId = p := hl.waiting p (.join m) (hq ▸ List.mem_cons_self)
    by_cases hqm : q = m.partId
    · rw [hqm, hm]
      exact h.waiting p (by simp [hq])
    · have hs : (update s.runningUpdates m.partId (some m.upstream.partId) q).isSome := hs
      rw [update_of_ne hqm] at hs
      exact h.running q hs

/-- What came for a partition that is not here. -/
def Early (s : PlanController β) : Prop := ∀ p, ∀ e ∈ s.bufferedRequests p, e.partId = p

theorem Early.buffer (h : Early s) (e : VersionedJoinMeta β) : Early (s.buffer e) := by
  intro p e' he'
  by_cases hp : p = e.partId
  · subst hp
    simp only [PlanController.buffer, update_self, List.mem_append,
      List.mem_singleton] at he'
    rcases he' with he' | rfl
    · exact h _ _ he'
    · rfl
  · simp only [PlanController.buffer, update_of_ne hp] at he'
    exact h p e' he'

theorem early_head (h : Early s) (hh : Head c s a s₁) : Early s₁ := by
  cases hh with
  | bufferJoin m hk => exact h.buffer _
  | bufferFetch f hk => exact h.buffer _
  | _ => exact h

theorem early_tail (h : Early s) (ht : Tail c s s') : Early s' := by
  cases ht <;> exact h

/-- Only a join message becomes pending. -/
theorem unpended_head (hu : ∀ p v, s.pendingUpdates p v = []) (ha : ∀ m, a ≠ .kReceiveJoin m)
    (hh : Head c s a s₁) : ∀ p v, s₁.pendingUpdates p v = [] := by
  cases hh with
  | pendJoin m hk hj hc hv => exact absurd rfl (ha m)
  | finishMapJoin i p b hi hk hc =>
    intro q v
    rw [List.eq_nil_iff_forall_not_mem]
    intro m hm
    have hm : m ∈ s.pendingUpdates q v := mem_pending_of_releasePending hm
    rw [hu q v] at hm
    cases hm
  | _ => exact hu

theorem unpended_tail (hu : ∀ p v, s.pendingUpdates p v = []) (ht : Tail c s s') :
    ∀ p v, s'.pendingUpdates p v = [] := by
  cases ht <;> exact hu

end PlanController

namespace Site

open PlanController

variable {K M O B : Type} {job : MapJoin K M O B} {n : Int} {x y : Site K M O B}
  {a : Action (List B)} {s s' : PlanController (List B)}

/-- Between two steps. -/
structure Sited (job : MapJoin K M O B) (n : Int) (x : Site K M O B) : Prop where
  placed : Placed x.pc
  excl : ∀ p, Excl (job.spec n) x.pc p
  homed : Homed x.pc
  early : Early x.pc
  unpended : ∀ p v, x.pc.pendingUpdates p v = []
  pending : ∀ key, ∀ e ∈ x.pending.val key, e.partId = key.1
  mapKeys : Same job → ∀ p, p ∈ x.pc.mapVersions.keys ↔ p ∈ x.pc.updateVersions.keys
  parts : ∀ p, p ∈ x.parts.keys ↔ p ∈ x.pc.updateVersions.keys

/-- What only a migration changes. -/
structure Steady (x y : Site K M O B) : Prop where
  same : SameParts x.pc y.pc
  parts : y.parts.keys = x.parts.keys
  partToNode : y.partToNode = x.partToNode
  flushAllCount : y.flushAllCount = x.flushAllCount

theorem sited_init : Sited job n (init job n) where
  placed := ⟨fun _ _ h => absurd h (by simp [init, setup]), fun _ _ _ h => absurd h (by simp [init, setup])⟩
  excl p := excl_setup p
  homed := ⟨fun _ h => absurd h (by simp [init, setup]), fun _ h => absurd rfl h⟩
  early _ _ h := absurd h (by simp [init, setup])
  unpended _ _ := rfl
  pending _ _ h := absurd h (by simp [init])
  mapKeys hs p := by
    show p ∈ owned (job.partToNode job.mapCollectionId) n ↔
      p ∈ owned (job.partToNode job.updateCollectionId) n
    rw [hs]
  parts _ := Iff.rfl

/-! ## The controller's own steps -/

theorem Sited.release (h : Sited job n x) {p : Int} (v : Int)
    (hp : p ∈ x.pc.updateVersions.keys) : Sited job n (x.release p v) where
  placed := h.placed.setWaiting fun e he => by
    rcases List.mem_append.mp he with he | he
    · exact h.placed.waiting p e he
    · exact h.pending _ e he
  excl q := { h.excl q with }
  homed := ⟨h.homed.running, fun q hq => by
    by_cases hqp : q = p
    · exact hqp ▸ hp
    · have hq : update x.pc.waitingUpdates p _ q ≠ [] := hq
      rw [update_of_ne hqp] at hq
      exact h.homed.waiting q hq⟩
  early := h.early
  unpended := h.unpended
  pending key e he := by
    have he : e ∈ (x.pending.erase (p, v)).val key := he
    rw [Multimap.val_erase] at he
    split at he
    · cases he
    · exact h.pending key e he
  mapKeys := h.mapKeys
  parts := h.parts

theorem before_cases (job : MapJoin K M O B) (x : Site K M O B) (a : Action (List B)) :
    x.before job a = x ∨ ∃ i p b, a = .process i ∧ x.pc.workQueue[i]? = some (.kFinishMap p b) ∧
      Same job ∧ p ∈ x.pc.mapVersions.keys ∧
        x.before job a = x.release p (x.pc.mapVersions.val p) := by
  unfold before
  cases a with
  | process i =>
    simp only
    split
    · next p b hi =>
      split
      · next hs => exact .inr ⟨i, p, b, rfl, hi, hs.1, hs.2, rfl⟩
      · exact .inl rfl
    · exact .inl rfl
  | _ => exact .inl rfl

/-- What `before` leaves alone. -/
theorem before_same (job : MapJoin K M O B) (x : Site K M O B) (a : Action (List B)) :
    SameParts x.pc (x.before job a).pc ∧ (x.before job a).parts = x.parts ∧
      (x.before job a).partToNode = x.partToNode ∧
      (x.before job a).flushAllCount = x.flushAllCount := by
  rcases before_cases job x a with hb | ⟨i, p, b, -, -, -, -, hb⟩
  · rw [hb]
    exact ⟨.refl _, rfl, rfl, rfl⟩
  · rw [hb]
    exact ⟨⟨rfl, rfl, fun _ => Iff.rfl⟩, rfl, rfl, rfl⟩

theorem Sited.before (h : Sited job n x) (a : Action (List B)) : Sited job n (x.before job a) := by
  rcases before_cases job x a with hb | ⟨i, p, b, -, -, hs, hp, hb⟩
  · rw [hb]
    exact h
  · rw [hb]
    exact h.release _ ((h.mapKeys hs p).mp hp)

theorem runUpdate_eq_ok [LinearOrder K] {m : JoinMeta (List B)} (h : x.runUpdate job m = .ok y) :
    ∃ val store, y = { x with parts := ⟨x.parts.keys, val⟩, streamStore := store } := by
  unfold runUpdate at h
  split at h
  · split at h
    · cases h
    · cases h
      exact ⟨_, _, rfl⟩
  · cases h
    exact ⟨_, _, rfl⟩

/-- A task only works on the contents of the partitions and on the streams. -/
theorem runTask_eq_ok [LinearOrder K] (h : x.runTask job a = .ok y) :
    ∃ val store, y = { x with parts := ⟨x.parts.keys, val⟩, streamStore := store } := by
  unfold runTask at h
  split at h
  · split at h
    · exact runUpdate_eq_ok h
    · cases h
      exact ⟨_, _, rfl⟩
  · cases h
    exact ⟨_, _, rfl⟩

theorem act_eq_ok [LinearOrder K] (h : x.act job n a = .ok y) :
    ∃ x₁ pc, (x.before job a).runTask job a = .ok x₁ ∧ step (x₁.spec job n) x₁.pc a = .ok pc ∧
      y = after { x₁ with pc := pc, entries := x₁.entries ∪ (x.touched job a).toFinset } a := by
  unfold act at h
  obtain ⟨x₁, h₁, h⟩ := bind_eq_ok.mp h
  obtain ⟨pc, hpc, h⟩ := bind_eq_ok.mp h
  exact ⟨x₁, pc, h₁, mapError_eq_ok.mp hpc, (Except.ok.inj h).symm⟩

/-- Exclusion does not depend on which partitions are here. -/
theorem excl_spec (z : Site K M O B) {s : PlanController (List B)} {p : Int} :
    Excl (z.spec job n) s p ↔ Excl (job.spec n) s p :=
  ⟨fun h => ⟨h.updates, h.maps, h.fetches, h.noFetch, h.noMap⟩,
    fun h => ⟨h.updates, h.maps, h.fetches, h.noFetch, h.noMap⟩⟩

/-- What a step of the controller keeps. -/
theorem step_homed {c : Spec} (hl : Placed s) (hx : ∀ p, Excl c s p) (hh : Homed s) (he : Early s)
    (hu : ∀ p v, s.pendingUpdates p v = []) (h : step c s a = .ok s') :
    Placed s' ∧ (∀ p, Excl c s' p) ∧ Homed s' ∧ Early s' ∧ SameParts s s' := by
  refine step_induct (P := fun t => Placed t ∧ (∀ p, Excl c t p) ∧ Homed t ∧ Early t ∧
    SameParts s t) h (fun s₁ hs₁ => ?_) fun t u ht htu => ?_
  · exact ⟨placed_head hl hs₁, excl_head hx hs₁, homed_head hh hx hu hs₁, early_head he hs₁,
      sameParts_head hh hx hs₁⟩
  · obtain ⟨hl, hx, hh, he, hp⟩ := ht
    exact ⟨placed_tail hl htu, excl_tail hl hx htu, homed_tail hl hh htu, early_tail he htu,
      hp.trans (sameParts_tail htu)⟩

theorem step_unpended {c : Spec} (hu : ∀ p v, s.pendingUpdates p v = [])
    (ha : ∀ m, a ≠ .kReceiveJoin m) (h : step c s a = .ok s') : ∀ p v, s'.pendingUpdates p v = [] :=
  step_induct (P := fun t => ∀ p v, t.pendingUpdates p v = []) h
    (fun _ hs₁ => unpended_head hu ha hs₁) fun _ _ ht htu => unpended_tail ht htu

theorem Sited.collect {pc : PlanController (List B)} (h : Sited job n x) (hl : Placed pc)
    (hx : ∀ p, Excl (job.spec n) pc p) (hh : Homed pc) (he : Early pc) (hs : SameParts x.pc pc)
    (p v : Int) : Sited job n (Site.collect { x with pc := pc } p v) where
  placed := ⟨hl.waiting, fun _ _ _ hm => absurd hm (by simp [Site.collect])⟩
  excl q := { hx q with }
  homed := { hh with }
  early := he
  unpended _ _ := rfl
  pending key e he := by
    have hmem : e ∈ ((pc.pendingUpdates p v).foldl
      (fun q m => q.push (p, v) (.join m)) x.pending).val key := he
    rw [Multimap.val_foldl_push] at hmem
    by_cases hkey : key = (p, v)
    · rw [if_pos hkey] at hmem
      rw [hkey]
      rcases List.mem_append.mp hmem with hmem | hmem
      · exact h.pending _ e hmem
      · obtain ⟨m, hm, rfl⟩ := List.mem_map.mp hmem
        exact (hl.pending p v m hm).1
    · rw [if_neg hkey] at hmem
      exact h.pending key e hmem
  mapKeys hsame q := by
    show q ∈ pc.mapVersions.keys ↔ q ∈ pc.updateVersions.keys
    rw [hs.map, hs.update]
    exact h.mapKeys hsame q
  parts q := by
    show q ∈ x.parts.keys ↔ q ∈ pc.updateVersions.keys
    rw [hs.update]
    exact h.parts q

/-- **A step of the controller** keeps the site in order, and the partitions that are there. -/
theorem Sited.act [LinearOrder K] (h : Sited job n x) (ha : x.act job n a = .ok y) :
    Sited job n y ∧ Steady x y := by
  obtain ⟨x₁, pc, hrun, hstep, rfl⟩ := act_eq_ok ha
  have h₀ := h.before a
  obtain ⟨hsame, hparts, hnode, hcount⟩ := before_same job x a
  obtain ⟨val, store, rfl⟩ := runTask_eq_ok hrun
  generalize x.before job a = x₀ at *
  obtain ⟨hl, hx, hh, he, hs⟩ := step_homed (h := hstep) h₀.placed
    (fun p => (excl_spec _).mpr (h₀.excl p)) h₀.homed h₀.early h₀.unpended
  have hsteady : SameParts x.pc pc := hsame.trans hs
  have hpk : x₀.parts.keys = x.parts.keys := by rw [hparts]
  have hx : ∀ p, Excl (job.spec n) pc p := fun p => (excl_spec _).mp (hx p)
  have h₁ : Sited job n { x₀ with
      parts := ⟨x₀.parts.keys, val⟩
      streamStore := store
      entries := x₀.entries ∪ (x.touched job a).toFinset } := { h₀ with }
  by_cases hj : ∃ m, a = .kReceiveJoin m
  · obtain ⟨m, rfl⟩ := hj
    exact ⟨h₁.collect hl hx hh he hs _ _,
      ⟨⟨hsteady.update, hsteady.map, hsteady.leaving⟩, hpk, hnode, hcount⟩⟩
  · have hj : ∀ m, a ≠ .kReceiveJoin m := fun m hm => hj ⟨m, hm⟩
    have hafter : ∀ z : Site K M O B, after z a = z := by
      intro z
      cases a with
      | kReceiveJoin m => exact absurd rfl (hj m)
      | _ => rfl
    rw [hafter]
    refine ⟨?_, ⟨hsteady, hpk, hnode, hcount⟩⟩
    exact {
      placed := hl
      excl := hx
      homed := hh
      early := he
      unpended := step_unpended h₀.unpended hj hstep
      pending := h₀.pending
      mapKeys := fun hsm q => by
        show q ∈ pc.mapVersions.keys ↔ q ∈ pc.updateVersions.keys
        rw [hs.map, hs.update]
        exact h₀.mapKeys hsm q
      parts := fun q => by
        show q ∈ x₀.parts.keys ↔ q ∈ pc.updateVersions.keys
        rw [hs.update]
        exact h₀.parts q }

/-- **Invariants of a site's controller**: `P` holds after the first change of the action and is
kept by the internal ones, whatever waits and whatever is pending. -/
theorem act_induct [LinearOrder K] {P : PlanController (List B) → Prop} (ha : x.act job n a = .ok y)
    (hhead : ∀ (z : Site K M O B) w s₁, Head (z.spec job n) { x.pc with waitingUpdates := w } a s₁ → P s₁)
    (htail : ∀ c t u, P t → Tail c t u → P u)
    (hafter : ∀ s q, P s → P { s with pendingUpdates := q }) : P y.pc := by
  obtain ⟨x₁, pc, hrun, hstep, rfl⟩ := act_eq_ok ha
  obtain ⟨val, store, rfl⟩ := runTask_eq_ok hrun
  have hpc : P pc := by
    refine step_induct hstep (fun s₁ hh => ?_) fun t u => htail _ t u
    rcases before_cases job x a with hb | ⟨i, p, b, -, -, -, -, hb⟩
    · rw [hb] at hh
      exact hhead _ x.pc.waitingUpdates s₁ hh
    · rw [hb] at hh
      exact hhead _ _ s₁ hh
  cases a with
  | kReceiveJoin m => exact hafter pc _ hpc
  | _ => exact hpc

end Site

end Tangram
