import Tangram.Cluster.Scene
import Tangram.Worker.Combining

/-!
# Map versions and map outputs

A map version, on a node or in a report, stands for outputs that were handed to a delayed
combiner, as long as the completions of aborted maps come when their partition has left
(`InTime`).  As built, `FinishMap` does not look at the flag of the completion, and a map
is aborted for the id of its partition alone, so both can fail.

    every step in time → MapProgress s                                    (map_progress)
-/

namespace Tangram

open StepRun Relation List Function Table

variable {K M O B : Type} {q : Int} {i : Nat}

/-! ## One controller -/

namespace PlanController

variable {β : Type} {c : Spec} {s s₁ s' : PlanController β} {a : Action β} {D D' : Int → Int → Prop}

/-- `D q w`: the output of `q` for version `w` was handed over.  A task of a partition that is here
is about its next version. -/
structure MapSound (D : Int → Int → Prop) (s : PlanController β) : Prop where
  tasks : ∀ t ∈ s.mapExecutor, t.partId ∈ s.mapVersions.keys →
    t.version = s.mapVersions.val t.partId
  done : ∀ q, .kFinishMap q true ∈ s.workQueue → q ∈ s.mapVersions.keys →
    D q (s.mapVersions.val q)
  versions : ∀ q ∈ s.mapVersions.keys, ∀ w, 0 ≤ w → w < s.mapVersions.val q → D q w
  reports : ∀ r ∈ s.toScheduler, r.flag = .kMap → ∀ w, 0 ≤ w → w < r.version → D r.partId w

theorem MapSound.mono (h : MapSound D s) (hD : ∀ q w, D q w → D' q w) : MapSound D' s where
  tasks := h.tasks
  done q hq hk := hD _ _ (h.done q hq hk)
  versions q hq w h0 hw := hD _ _ (h.versions q hq w h0 hw)
  reports r hr hf w h0 hw := hD _ _ (h.reports r hr hf w h0 hw)

/-- What the maps of a controller are about. -/
def SameMaps (s s₁ : PlanController β) : Prop :=
  s₁.mapExecutor = s.mapExecutor ∧ s₁.workQueue = s.workQueue ∧ s₁.mapVersions = s.mapVersions ∧
    s₁.toScheduler = s.toScheduler

theorem MapSound.of_same (h : MapSound D s) (hs : SameMaps s s₁) : MapSound D s₁ := by
  obtain ⟨h₁, h₂, h₃, h₄⟩ := hs
  exact ⟨by rw [h₁, h₃]; exact h.tasks, by rw [h₂, h₃]; exact h.done, by rw [h₃]; exact h.versions,
    by rw [h₄]; exact h.reports⟩

/-- The completion of an aborted map is not processed while its partition is here. -/
def AbortedGone (s : PlanController β) : Action β → Prop
  | .process i =>
    match s.workQueue[i]? with
    | some (.kFinishMap q false) => q ∉ s.mapVersions.keys
    | _ => True
  | _ => True

instance (s : PlanController β) : (a : Action β) → Decidable (AbortedGone s a)
  | .process i =>
    show Decidable (match s.workQueue[i]? with
      | some (.kFinishMap q false) => q ∉ s.mapVersions.keys
      | _ => True) from
    match s.workQueue[i]? with
    | some (.kFinishMap q false) => inferInstanceAs (Decidable (q ∉ s.mapVersions.keys))
    | some (.kFinishMap _ true) | some (.kFinishJoin ..) | some (.kFinishFetch ..)
    | some (.kFinishCheckpoint _) | none => .isTrue trivial
  | .kStart | .kReceiveJoin _ | .kFetchRequest _ | .releaseFetch _ | .kUpdateVersion _ | .beginMap _
  | .endMap _ | .execFetch _ => .isTrue trivial

theorem AbortedGone.flag (h : AbortedGone s (.process i)) {b : Bool}
    (hi : s.workQueue[i]? = some (.kFinishMap q b)) (hk : q ∈ s.mapVersions.keys) : b = true := by
  cases b with
  | true => rfl
  | false =>
    unfold AbortedGone at h
    simp only [hi] at h
    exact absurd hk h

/-- Messages that are not completions of maps come and go. -/
theorem MapSound.of_msgs (h : MapSound D s) (hx : s₁.mapExecutor = s.mapExecutor)
    (hq : ∀ q, .kFinishMap q true ∈ s₁.workQueue → .kFinishMap q true ∈ s.workQueue)
    (hv : s₁.mapVersions = s.mapVersions)
    (hr : ∀ r ∈ s₁.toScheduler, r.flag = .kMap → r ∈ s.toScheduler) : MapSound D s₁ where
  tasks := by rw [hx, hv]; exact h.tasks
  done q hmem hk := by
    rw [hv] at hk ⊢
    exact h.done q (hq q hmem) hk
  versions := by rw [hv]; exact h.versions
  reports r hmem hf := h.reports r (hr r hmem hf) hf

theorem mem_pushMsg {e e' : Completion} (h : e ∈ s.workQueue ++ [e']) (hne : e ≠ e') :
    e ∈ s.workQueue := by
  rcases mem_append.mp h with h | h
  · exact h
  · exact absurd (mem_singleton.mp h) hne

/-- A map that is done is the only one of its partition. -/
theorem no_other_map (hx : ∀ p, Excl c s p) {b : Bool}
    (hi : s.workQueue[i]? = some (.kFinishMap q b)) :
    (∀ t ∈ s.mapExecutor, t.partId ≠ q) ∧ ∀ b', .kFinishMap q b' ∉ s.workQueue.eraseIdx i := by
  have hperm := inUse_takeMsg s hi
  have hcount := (hx q).maps
  rw [hperm.count_eq, show (Completion.kFinishMap q b).use = .map q from rfl,
    count_cons_self] at hcount
  have hzero : (takeMsg s i).inUse.count (.map q) = 0 := by
    split at hcount <;> omega
  have hnot := count_eq_zero.mp hzero
  constructor
  · rintro t ht rfl
    refine hnot (mem_append_right _ (mem_append_left _ ?_))
    exact mem_map.mpr ⟨t, ht, rfl⟩
  · intro b' hb
    refine hnot (mem_append_right _ (mem_append_right _ (mem_append_left _ ?_)))
    exact mem_map.mpr ⟨_, hb, rfl⟩

/-- A map of a partition that is here is counted: its output was handed over. -/
theorem MapSound.countMap (h : MapSound D s) (hx : ∀ p, Excl c s p)
    (hi : s.workQueue[i]? = some (.kFinishMap q true)) (hk : q ∈ s.mapVersions.keys) :
    MapSound D (countMap c (mapDone (takeMsg s i) q) q) := by
  obtain ⟨htask, hmsg⟩ := no_other_map hx hi
  have hkeys : (s.mapVersions.set q (s.mapVersions.val q + 1)).keys = s.mapVersions.keys :=
    keys_set_of_mem _ _ hk
  have hall : ∀ w, 0 ≤ w → w < s.mapVersions.val q + 1 → D q w := by
    intro w h0 hw
    rcases (show w < s.mapVersions.val q ∨ w = s.mapVersions.val q by omega) with hw | rfl
    · exact h.versions q hk w h0 hw
    · exact h.done q (mem_of_getElem? hi) hk
  refine ⟨fun t ht hkt => ?_, fun p hp hkp => ?_, fun p hp w h0 hw => ?_,
    fun r hr hf w h0 hw => ?_⟩
  · show t.version = (s.mapVersions.set q _).val t.partId
    rw [val_set_ne _ _ (htask t ht)]
    exact h.tasks t ht (hkeys ▸ hkt)
  · have hne : p ≠ q := by
      rintro rfl
      exact hmsg true hp
    show D p ((s.mapVersions.set q _).val p)
    rw [val_set_ne _ _ hne]
    exact h.done p (mem_of_mem_eraseIdx hp) (hkeys ▸ hkp)
  · have hw : w < (s.mapVersions.set q (s.mapVersions.val q + 1)).val p := hw
    by_cases hpq : p = q
    · subst hpq
      rw [val_set_self] at hw
      exact hall w h0 hw
    · rw [val_set_ne _ _ hpq] at hw
      exact h.versions p (hkeys ▸ hp) w h0 hw
  · have hr : r ∈ s.toScheduler ++ [⟨.kMap, s.mapVersions.val q + 1, c.nodeId, c.planId, q⟩] := hr
    rcases mem_append.mp hr with hr | hr
    · exact h.reports r hr hf w h0 hw
    · rw [mem_singleton.mp hr] at hw ⊢
      exact hall w h0 hw

theorem mapSound_head (h : MapSound D s) (hx : ∀ p, Excl c s p) (ht : AbortedGone s a)
    (hh : Head c s a s₁) (hD : ∀ x ∈ s₁.mapped, D x.1 x.2) : MapSound D s₁ := by
  cases hh with
  | abortBegin i t hi hs | abortEnd i t hi hs =>
    exact ⟨fun t' ht' => h.tasks t' (mem_of_mem_eraseIdx ht'),
      fun q hq => h.done q (mem_pushMsg hq (by simp)), h.versions, h.reports⟩
  | beginMap i t hi =>
    refine ⟨fun t' ht' => ?_, h.done, h.versions, h.reports⟩
    rcases mem_or_eq_of_mem_set ht' with ht' | rfl
    · exact h.tasks t' ht'
    · exact h.tasks t (mem_of_getElem? hi)
  | endMap i t hi hs =>
    refine ⟨fun t' ht' => h.tasks t' (mem_of_mem_eraseIdx ht'), fun q hq hk => ?_,
      h.versions, h.reports⟩
    by_cases hqt : q = t.partId
    · subst hqt
      show D t.partId (s.mapVersions.val t.partId)
      rw [← h.tasks t (mem_of_getElem? hi) hk]
      exact hD (t.partId, t.version) (mem_append_right _ mem_cons_self)
    · exact h.done q (mem_pushMsg hq (by simp [hqt])) hk
  | finishMapGone i q b hi hk =>
    exact ⟨h.tasks, fun p hp => h.done p (mem_of_mem_eraseIdx hp), h.versions, h.reports⟩
  | finishMap i q b hi hk hc =>
    cases ht.flag hi hk
    exact h.countMap hx hi hk
  | finishMapJoin i q b hi hk hc =>
    cases ht.flag hi hk
    exact (h.countMap hx hi hk).of_same ⟨rfl, rfl, rfl, rfl⟩
  | execJoin i m hi | execCheckpoint i p iter hi | execFetch i f v hi =>
    exact h.of_msgs rfl (fun q hq => mem_pushMsg hq (by simp)) rfl fun _ hr _ => hr
  | trackJoin i p v ups hi hn =>
    exact h.of_msgs rfl (fun q hq => mem_of_mem_eraseIdx hq) rfl fun _ hr _ => hr
  | complete i p v ups hi hn =>
    refine h.of_msgs rfl (fun q hq => mem_of_mem_eraseIdx hq) rfl fun r hr hf => ?_
    rcases mem_append.mp hr with hr | hr
    · exact hr
    · rw [mem_singleton.mp hr] at hf
      cases hf
  | completeCheckpoint i p v ups hi hn | finishFetch i p u hi =>
    exact h.of_msgs rfl (fun q hq => mem_of_mem_eraseIdx hq) rfl fun _ hr _ => hr
  | finishCheckpoint i p hi hr =>
    refine h.of_msgs rfl (fun q hq => mem_of_mem_eraseIdx hq) rfl fun r hr hf => ?_
    rcases mem_append.mp hr with hr | hr
    · exact hr
    · rw [mem_singleton.mp hr] at hf
      cases hf
  | _ => exact h.of_same ⟨rfl, rfl, rfl, rfl⟩

theorem mapSound_tail (h : MapSound D s) (ht : Tail c s s') : MapSound D s' := by
  cases ht with
  | launch p hr hp =>
    refine ⟨fun t ht => ?_, h.done, h.versions, h.reports⟩
    rcases mem_append.mp ht with ht | ht
    · exact h.tasks t ht
    · rw [mem_singleton.mp ht]
      exact fun _ => rfl
  | _ => exact h.of_same ⟨rfl, rfl, rfl, rfl⟩

/-- A partition whose migration is over here has left, and its map still runs. -/
def LeftBehind (s : PlanController β) : Prop :=
  ∀ q, s.stopUpdateingPartitions q = some true → q ∈ s.runningMaps ∧ q ∉ s.mapVersions.keys

theorem LeftBehind.mapDone (h : LeftBehind s) (q : Int) : LeftBehind (mapDone s q) := by
  intro p hp
  have hp : (if s.stopUpdateingPartitions q = some true
    then update s.stopUpdateingPartitions q none
    else s.stopUpdateingPartitions) p = some true := hp
  show p ∈ s.runningMaps.erase q ∧ p ∉ s.mapVersions.keys
  by_cases hpq : p = q
  · subst hpq
    split at hp
    · rw [update_self] at hp
      cases hp
    · next hne => exact absurd hp hne
  · have hp : s.stopUpdateingPartitions p = some true := by
      split at hp
      · rwa [update_of_ne hpq] at hp
      · exact hp
    exact ⟨Finset.mem_erase.mpr ⟨hpq, (h p hp).1⟩, (h p hp).2⟩

theorem leftBehind_head (h : LeftBehind s) (hh : Head c s a s₁) : LeftBehind s₁ := by
  have hcount : ∀ i q, q ∈ s.mapVersions.keys →
      LeftBehind (countMap c (mapDone (takeMsg s i) q) q) := by
    intro i q hk p hp
    obtain ⟨h₁, h₂⟩ := LeftBehind.mapDone (s := takeMsg s i) h q p hp
    refine ⟨h₁, fun hm => h₂ ?_⟩
    have hm : p ∈ (s.mapVersions.set q (s.mapVersions.val q + 1)).keys := hm
    rwa [keys_set_of_mem _ _ hk] at hm
  cases hh with
  | finishMapGone i q b hi hk => exact LeftBehind.mapDone (s := takeMsg s i) h q
  | finishMap i q b hi hk hc => exact hcount i q hk
  | finishMapJoin i q b hi hk hc => exact hcount i q hk
  | _ => exact h

theorem leftBehind_tail (h : LeftBehind s) (ht : Tail c s s') : LeftBehind s' := by
  cases ht with
  | launch p hr hp => exact fun q hq => ⟨Finset.mem_insert_of_mem (h q hq).1, (h q hq).2⟩
  | _ => exact h

/-- Outputs that were handed over stay so. -/
theorem mapped_head (hh : Head c s a s₁) : s.mapped ⊆ s₁.mapped := by
  cases hh with
  | endMap i t hi hs => exact subset_append_left _ _
  | _ => exact List.Subset.refl _

theorem mapped_tail (ht : Tail c s s') : s'.mapped = s.mapped := by
  cases ht <;> rfl

/-- Only a map whose partition is stopped is aborted. -/
theorem aborts_head (hh : Head c s a s₁) (hq : s₁.workQueue = s.workQueue ++ [.kFinishMap q false]) :
    ∃ i t, (a = .beginMap i ∨ a = .endMap i) ∧ s.mapExecutor[i]? = some t ∧ t.partId = q ∧
      s.stopUpdateingPartitions q ≠ none := by
  have hlen := congrArg List.length hq
  rw [length_append, length_singleton] at hlen
  have hlast : ∀ e, s₁.workQueue = s.workQueue ++ [e] → e = .kFinishMap q false := by
    intro e he
    exact (List.cons.inj (append_cancel_left (he.symm.trans hq))).1
  have herase : ∀ i, s₁.workQueue ≠ s.workQueue.eraseIdx i := by
    intro i he
    have := length_eraseIdx_le s.workQueue i
    rw [he] at hlen
    omega
  cases hh with
  | abortBegin i t hi hs =>
    obtain rfl : t.partId = q := (Completion.kFinishMap.inj (hlast _ rfl)).1
    exact ⟨i, t, .inl rfl, hi, rfl, Option.isSome_iff_ne_none.mp hs⟩
  | abortEnd i t hi hs =>
    obtain rfl : t.partId = q := (Completion.kFinishMap.inj (hlast _ rfl)).1
    exact ⟨i, t, .inr rfl, hi, rfl, Option.isSome_iff_ne_none.mp hs⟩
  | endMap i t hi hs => cases hlast _ rfl
  | execJoin i m hi => cases hlast _ rfl
  | execCheckpoint i p iter hi => cases hlast _ rfl
  | execFetch i f v hi => cases hlast _ rfl
  | finishMapGone i q b hi hk => exact absurd rfl (herase i)
  | finishMap i q b hi hk hc => exact absurd rfl (herase i)
  | finishMapJoin i q b hi hk hc => exact absurd rfl (herase i)
  | trackJoin i p v ups hi hn => exact absurd rfl (herase i)
  | complete i p v ups hi hn => exact absurd rfl (herase i)
  | completeCheckpoint i p v ups hi hn => exact absurd rfl (herase i)
  | finishFetch i p u hi => exact absurd rfl (herase i)
  | finishCheckpoint i p hi hr => exact absurd rfl (herase i)
  | _ => exact absurd hlen (Nat.ne_of_lt (Nat.lt_succ_self _))

theorem workQueue_tail (ht : Tail c s s') : s'.workQueue = s.workQueue := by
  cases ht <;> rfl

/-- The completion of an aborted map in time changes no version. -/
theorem mapVersions_head (ht : AbortedGone s a) (ha : a = .process i)
    (hi : s.workQueue[i]? = some (.kFinishMap q false)) (hh : Head c s a s₁) :
    s₁.mapVersions = s.mapVersions := by
  cases ha
  cases hh with
  | finishMap _ p b hi' hk hc =>
    cases hi.symm.trans hi'
    cases ht.flag hi hk
  | finishMapJoin _ p b hi' hk hc =>
    cases hi.symm.trans hi'
    cases ht.flag hi hk
  | _ => rfl

theorem mapVersions_tail (ht : Tail c s s') : s'.mapVersions = s.mapVersions := by
  cases ht <;> rfl

end PlanController

/-! ## One site -/

namespace Site

open PlanController

variable {job : MapJoin K M O B} {n : Int} {x y : Site K M O B} {D D' : Int → Int → Prop}
  {a : Action (List B)}

/-- The maps of a site. -/
structure MapBooks (job : MapJoin K M O B) (D : Int → Int → Prop) (x : Site K M O B) : Prop where
  sound : MapSound D x.pc
  behind : Same job → LeftBehind x.pc

theorem MapBooks.mono (h : MapBooks job D x) (hD : ∀ q w, D q w → D' q w) :
    MapBooks job D' x := ⟨h.sound.mono hD, h.behind⟩

theorem mapBooks_init : MapBooks job D (init job n : Site K M O B) where
  sound := {
    tasks := fun _ h => absurd h (by simp [init, setup])
    done := fun _ h => absurd h (by simp [init, setup])
    versions := fun _ _ w h0 hw => absurd hw (by simpa [init, setup] using h0)
    reports := fun _ h => absurd h (by simp [init, setup]) }
  behind _ _ h := absurd h (by simp [init, setup])

/-- With the outputs that the site itself has handed over. -/
def Handed (D : Int → Int → Prop) (s : PlanController (List B)) (q w : Int) : Prop :=
  D q w ∨ (q, w) ∈ s.mapped

theorem MapBooks.act [LinearOrder K] (h : MapBooks job D x) (hs : Sited job n x)
    (ht : AbortedGone x.pc a) (ha : x.act job n a = .ok y) : MapBooks job (Handed D y.pc) y := by
  refine ⟨?_, ?_⟩
  · refine act_induct (P := fun s => MapSound (Handed D s) s) ha (fun z w s₁ hh => ?_)
      (fun c t u htu hu => ?_) fun s q hP => hP.of_same ⟨rfl, rfl, rfl, rfl⟩
    · have h₁ : MapSound (Handed D s₁) { x.pc with waitingUpdates := w } :=
        (h.sound.mono fun q v hq => .inl hq).of_same ⟨rfl, rfl, rfl, rfl⟩
      exact mapSound_head h₁ (fun p => { (excl_spec z).mpr (hs.excl p) with }) ht hh
        fun _ hmem => .inr hmem
    · have h₁ : MapSound (Handed D u) t := htu.mono fun q v => by
        unfold Handed
        rw [mapped_tail hu]
        exact id
      exact mapSound_tail h₁ hu
  · intro hsame
    exact act_induct (P := LeftBehind) ha (fun z w s₁ hh =>
      leftBehind_head (s := { x.pc with waitingUpdates := w }) (h.behind hsame) hh)
      (fun c t u htu hu => leftBehind_tail htu hu) fun s q hP => hP

theorem mapped_act [LinearOrder K] (ha : x.act job n a = .ok y) : x.pc.mapped ⊆ y.pc.mapped :=
  act_induct (P := fun s => x.pc.mapped ⊆ s.mapped) ha
    (fun _ w _ hh => mapped_head (s := { x.pc with waitingUpdates := w }) hh)
    (fun _ _ _ ht hu => mapped_tail hu ▸ ht) fun _ _ hP => hP

/-- A map is aborted. -/
theorem aborts_act [LinearOrder K] (ha : x.act job n a = .ok y)
    (hq : y.pc.workQueue = x.pc.workQueue ++ [.kFinishMap q false]) :
    ∃ i t, (a = .beginMap i ∨ a = .endMap i) ∧ x.pc.mapExecutor[i]? = some t ∧ t.partId = q ∧
      x.pc.stopUpdateingPartitions q ≠ none :=
  act_induct (P := fun s => s.workQueue = x.pc.workQueue ++ [.kFinishMap q false] → _) ha
    (fun _ w _ hh => aborts_head (s := { x.pc with waitingUpdates := w }) hh)
    (fun _ _ _ ht hu h => ht (workQueue_tail hu ▸ h)) (fun _ _ hP => hP) hq

theorem mapVersions_act [LinearOrder K] (ht : AbortedGone x.pc (.process i))
    (ha : x.act job n (.process i) = .ok y) (hi : x.pc.workQueue[i]? = some (.kFinishMap q false)) :
    y.pc.mapVersions = x.pc.mapVersions :=
  act_induct (P := fun s => s.mapVersions = x.pc.mapVersions) ha
    (fun _ w _ hh => mapVersions_head (s := { x.pc with waitingUpdates := w }) (a := .process i) ht rfl hi hh)
    (fun _ _ _ ht hu => (mapVersions_tail hu).trans ht) fun _ _ hP => hP

theorem MapBooks.started (h : MapBooks job D x) (info : MigrateMeta) (view : List Int) :
    MapBooks job D (x.started n info view) where
  sound := h.sound.of_same ⟨rfl, rfl, rfl, rfl⟩
  behind hs q hq := by
    refine h.behind hs q ?_
    have hq : (if info.fromId = n
      then update x.pc.stopUpdateingPartitions info.partitionId (some false)
      else x.pc.stopUpdateingPartitions) q = some true := hq
    split at hq
    · by_cases hqp : q = info.partitionId
      · subst hqp
        rw [update_self] at hq
        cases hq
      · rwa [update_of_ne hqp] at hq
    · exact hq

theorem MapBooks.leave (h : MapBooks job D x) (p : Int)
    (store : Int × List Int × Int → Option (List (K × M))) : MapBooks job D (x.leave job p store) := by
  by_cases hs : Same job
  · have hv : (x.leave job p store).pc.mapVersions = x.pc.mapVersions.erase p 0 := if_pos hs
    have hkey : ∀ q ∈ (x.leave job p store).pc.mapVersions.keys,
        q ∈ x.pc.mapVersions.keys ∧
          (x.leave job p store).pc.mapVersions.val q = x.pc.mapVersions.val q := by
      intro q hq
      rw [hv] at hq ⊢
      obtain ⟨hq, hne⟩ := mem_keys_erase.mp hq
      exact ⟨hq, val_erase_ne _ _ hne⟩
    refine ⟨⟨fun t ht hk => ?_, fun q hq hk => ?_, fun q hq w h0 hw => ?_, h.sound.reports⟩,
      fun _ q hq => ?_⟩
    · rw [(hkey _ hk).2]
      exact h.sound.tasks t ht (hkey _ hk).1
    · rw [(hkey _ hk).2]
      exact h.sound.done q hq (hkey _ hk).1
    · rw [(hkey _ hq).2] at hw
      exact h.sound.versions q (hkey _ hq).1 w h0 hw
    · have hq : update x.pc.stopUpdateingPartitions p
        (if p ∈ x.pc.runningMaps then some true else none) q = some true := hq
      by_cases hqp : q = p
      · subst hqp
        rw [update_self] at hq
        split at hq
        · next hr => exact ⟨hr, fun hm => (mem_keys_erase.mp (hv ▸ hm)).2 rfl⟩
        · cases hq
      · rw [update_of_ne hqp] at hq
        exact ⟨(h.behind hs q hq).1, fun hm => (h.behind hs q hq).2 (hkey q hm).1⟩
  · have hv : (x.leave job p store).pc.mapVersions = x.pc.mapVersions := if_neg hs
    exact ⟨h.sound.of_same ⟨rfl, rfl, hv, rfl⟩, fun hs' => absurd hs' hs⟩

/-- A partition that comes where no map of it runs. -/
theorem MapBooks.settle (h : MapBooks job D x) (hsite : Sited job n x) {p : Int}
    {data : MigrateData B} (part : IndexedSeqPartition K O)
    (hrun : Same job → p ∉ x.pc.runningMaps)
    (hdata : Same job → ∀ w, 0 ≤ w → w < data.mapVersion → D p w) :
    MapBooks job D (x.settle job p data part) := by
  have hpc : (x.settle job p data part).pc = _ := settle_pc p data part
  by_cases hs : Same job
  · have hfree : x.pc.inUse.count (.map p) = 0 := by
      rw [(hsite.excl p).maps, if_neg (hrun hs)]
    have hnot := count_eq_zero.mp hfree
    have hv : (x.settle job p data part).pc.mapVersions =
        x.pc.mapVersions.set p data.mapVersion := by
      rw [hpc]
      exact if_pos hs
    -- no other map of the partition: the old entries are about other partitions
    have hkey : ∀ q, q ≠ p → q ∈ (x.settle job p data part).pc.mapVersions.keys →
        q ∈ x.pc.mapVersions.keys ∧
          (x.settle job p data part).pc.mapVersions.val q = x.pc.mapVersions.val q := by
      intro q hne hq
      rw [hv] at hq ⊢
      exact ⟨(mem_keys_set.mp hq).resolve_left hne, val_set_ne _ _ hne⟩
    refine ⟨⟨fun t ht hk => ?_, fun q hq hk => ?_, fun q hq w h0 hw => ?_, ?_⟩, fun _ q hq => ?_⟩
    · rw [hpc] at ht
      have hne : t.partId ≠ p := by
        rintro rfl
        exact hnot (mem_append_right _ (mem_append_left _
          (mem_map.mpr ⟨t, ht, rfl⟩)))
      rw [(hkey _ hne hk).2]
      exact h.sound.tasks t ht (hkey _ hne hk).1
    · rw [hpc] at hq
      have hne : q ≠ p := by
        rintro rfl
        exact hnot (mem_append_right _ (mem_append_right _ (mem_append_left _
          (mem_map.mpr ⟨_, hq, rfl⟩))))
      rw [(hkey _ hne hk).2]
      exact h.sound.done q hq (hkey _ hne hk).1
    · by_cases hne : q = p
      · subst hne
        rw [hv, val_set_self] at hw
        exact hdata hs w h0 hw
      · rw [(hkey _ hne hq).2] at hw
        exact h.sound.versions q (hkey _ hne hq).1 w h0 hw
    · rw [hpc]
      exact h.sound.reports
    · rw [hpc] at hq
      obtain ⟨hr, hk⟩ := h.behind hs q hq
      have hne : q ≠ p := by
        rintro rfl
        exact hrun hs hr
      refine ⟨?_, fun hm => hk (hkey q hne hm).1⟩
      rw [hpc]
      exact hr
  · refine ⟨h.sound.of_same ⟨by rw [hpc], by rw [hpc], ?_, by rw [hpc]⟩, fun hs' => absurd hs' hs⟩
    rw [hpc]
    exact if_neg hs

theorem MapBooks.resume (h : MapBooks job D x) {p : Int} (hr : x.resume job n p = .ok y) :
    MapBooks job D y ∧ y.pc.mapped = x.pc.mapped := by
  obtain ⟨pc, htail, rfl⟩ := resume_eq_ok hr
  have hpc : MapSound D pc ∧ (Same job → LeftBehind pc) ∧ pc.mapped = x.pc.mapped := by
    clear hr
    induction htail with
    | refl => exact ⟨h.sound, h.behind, rfl⟩
    | tail _ htu ih =>
      obtain ⟨h₁, h₂, h₃⟩ := ih
      exact ⟨mapSound_tail h₁ htu, fun hs => leftBehind_tail (h₂ hs) htu,
        (mapped_tail htu).trans h₃⟩
  obtain ⟨h₁, h₂, h₃⟩ := hpc
  refine ⟨⟨⟨h₁.tasks, h₁.done, h₁.versions, fun r hmem hf => ?_⟩, h₂⟩, h₃⟩
  rcases mem_append.mp hmem with hmem | hmem
  · exact h₁.reports r hmem hf
  · rw [mem_singleton.mp hmem] at hf
    cases hf

/-- What the books in a message stand for. -/
def Wire.Backed (job : MapJoin K M O B) (D : Int → Int → Prop) : Wire K O B → Prop
  | .kDest info data _ => Same job → ∀ w, 0 ≤ w → w < data.mapVersion → D info.partitionId w
  | _ => True

theorem Wire.Backed.mono {w : Wire K O B} (h : Wire.Backed job D w) (hD : ∀ q v, D q v → D' q v) :
    Wire.Backed job D' w := by
  cases w with
  | kDest info data bin => exact fun hs v h0 hv => hD _ _ (h hs v h0 hv)
  | _ => trivial

/-- A partition does not come back while a map of it runs. -/
def Wire.NoMap (job : MapJoin K M O B) (x : Site K M O B) : Wire K O B → Prop
  | .kDest info _ _ => Same job → info.partitionId ∉ x.pc.runningMaps
  | _ => True

instance (x : Site K M O B) (w : Wire K O B) : Decidable (Wire.NoMap job x w) := by
  cases w <;> unfold Wire.NoMap <;> infer_instance

theorem MapBooks.handle [LinearOrder K] (h : MapBooks job D x) (hs : Sited job n x)
    {w : Wire K O B} (hback : Wire.Backed job D w) (hrun : Wire.NoMap job x w)
    {r : Handled K M O B} (hr : x.handle job n w = .ok r) :
    MapBooks job (Handed D r.site.pc) r.site ∧ x.pc.mapped ⊆ r.site.pc.mapped ∧
      ∀ w' ∈ r.wires, Wire.Backed job D w' := by
  cases w with
  | join m =>
    obtain ⟨y, hy, hr⟩ := bind_eq_ok.mp hr
    cases hr
    exact ⟨h.act hs (a := .kReceiveJoin m) trivial hy, mapped_act hy, by simp [Handled.wires]⟩
  | kStartMigrate info view =>
    obtain ⟨-, rfl⟩ := startMigrate_eq_ok hr
    refine ⟨(h.started info view).mono fun q v hq => .inl hq, List.Subset.refl _, ?_⟩
    simp [Handled.wires, Wire.Backed]
  | kFlushAll info again =>
    obtain ⟨-, ⟨-, rfl⟩ | ⟨-, -, rfl⟩ | ⟨-, -, hr⟩⟩ := receiveFlushAll_eq_ok hr
    · exact ⟨⟨(h.sound.mono fun q v hq => .inl hq).of_same ⟨rfl, rfl, rfl, rfl⟩, h.behind⟩,
        List.Subset.refl _, by simp [Handled.wires]⟩
    · refine ⟨h.mono fun q v hq => .inl hq, List.Subset.refl _, ?_⟩
      simp [Handled.wires, Wire.Backed]
    · obtain ⟨-, hpart, store₁, pending, store, waiting, -, -, rfl⟩ := handOver_eq_ok hr
      refine ⟨(h.leave _ store).mono fun q v hq => .inl hq, List.Subset.refl _, ?_⟩
      intro w' hw'
      obtain rfl : w' = _ := by simpa [Handled.wires] using hw'
      intro hsame v h0 hv
      have hk : info.partitionId ∈ x.pc.mapVersions.keys :=
        (hs.mapKeys hsame _).mpr ((hs.parts _).mp hpart)
      have hbook : (x.books job info.partitionId pending waiting).mapVersion =
          x.pc.mapVersions.val info.partitionId := if_pos hsame
      exact h.sound.versions _ hk v h0 (hbook ▸ hv)
  | kDest info data bin =>
    obtain ⟨-, ⟨-, rfl⟩ | ⟨-, -, part, y, -, hy, rfl⟩⟩ := migrateDest_eq_ok hr
    · refine ⟨h.mono fun q v hq => .inl hq, List.Subset.refl _, ?_⟩
      intro w' hw'
      obtain rfl : w' = _ := by simpa [Handled.wires] using hw'
      exact hback
    · obtain ⟨hb, hm⟩ := (h.settle hs part hrun hback).resume hy
      refine ⟨hb.mono fun q v hq => .inl hq, ?_, by simp [Handled.wires]⟩
      rw [hm, settle_pc]
      exact List.Subset.refl _

end Site

/-! ## The cluster -/

namespace Migrating

open Site PlanController

variable {job : MapJoin K M O B} {s s' : Migrating K M O B}

/-- The output of `q` for version `w` was handed to the delayed combiner of a node. -/
def Mapped (s : Migrating K M O B) (q w : Int) : Prop :=
  ∃ n, (q, w) ∈ (s.site n).pc.mapped

/-- Map progress implies map output. -/
structure MapProgress (s : Migrating K M O B) : Prop where
  versions : ∀ n, ∀ q ∈ (s.site n).pc.mapVersions.keys, ∀ w, 0 ≤ w →
    w < (s.site n).pc.mapVersions.val q → s.Mapped q w
  reports : ∀ n, ∀ r ∈ (s.site n).pc.toScheduler, r.flag = .kMap → ∀ w, 0 ≤ w → w < r.version →
    s.Mapped r.partId w

/-- A plan that updates another collection than it maps runs no map task whose id is that of an
update partition that is leaving; otherwise the completions of aborted maps are processed when
the partition has left, and it does not come back before. -/
def InTime (job : MapJoin K M O B) (s : Migrating K M O B) : MigrationEvent K M B → Prop
  | .act n (.beginMap i) | .act n (.endMap i) =>
    match (s.site n).pc.mapExecutor[i]? with
    | none => True
    | some t => Same job ∨ (s.site n).pc.stopUpdateingPartitions t.partId = none
  | .act n (.process i) => AbortedGone (s.site n).pc (.process i)
  | .handle i =>
    match s.queue[i]? with
    | none => True
    | some k => Wire.NoMap job (s.site k.dst) k.wire
  | _ => True

instance (s : Migrating K M O B) : (e : MigrationEvent K M B) → Decidable (InTime job s e)
  | .act n (.beginMap i) | .act n (.endMap i) =>
    show Decidable (match (s.site n).pc.mapExecutor[i]? with
      | none => True
      | some t => Same job ∨ (s.site n).pc.stopUpdateingPartitions t.partId = none) from
    match (s.site n).pc.mapExecutor[i]? with
    | none => .isTrue trivial
    | some t => inferInstanceAs
      (Decidable (Same job ∨ (s.site n).pc.stopUpdateingPartitions t.partId = none))
  | .act n (.process i) => inferInstanceAs (Decidable (AbortedGone (s.site n).pc (.process i)))
  | .handle i =>
    show Decidable (match s.queue[i]? with
      | none => True
      | some k => Wire.NoMap job (s.site k.dst) k.wire) from
    match s.queue[i]? with
    | none => .isTrue trivial
    | some k => inferInstanceAs (Decidable (Wire.NoMap job (s.site k.dst) k.wire))
  | .act _ .kStart | .act _ (.kReceiveJoin _) | .act _ (.kFetchRequest _) | .act _ (.releaseFetch _)
  | .act _ (.kUpdateVersion _) | .act _ (.execFetch _) | .migrate .. | .arrive _ | .push _ | .send ..
  | .finishLoadWith .. => .isTrue trivial

theorem InTime.aborted {n : Int} {a : Action (List B)} (h : InTime job s (.act n a)) :
    AbortedGone (s.site n).pc a := by
  cases a with
  | process i => exact h
  | _ => trivial

theorem InTime.spared {n : Int} {a : Action (List B)} (h : InTime job s (.act n a))
    (ha : a = .beginMap i ∨ a = .endMap i) {t : MapTask}
    (hi : (s.site n).pc.mapExecutor[i]? = some t) :
    Same job ∨ (s.site n).pc.stopUpdateingPartitions t.partId = none := by
  rcases ha with rfl | rfl <;>
  · simp only [InTime, hi] at h
    exact h

structure MapInv (job : MapJoin K M O B) (s : Migrating K M O B) : Prop where
  ordered : Ordered job s
  books : ∀ n, MapBooks job s.Mapped (s.site n)
  backed : ∀ k ∈ s.packets ++ s.delayed, Wire.Backed job s.Mapped k.wire

theorem mapInv_init : MapInv job (init job : Migrating K M O B) where
  ordered := ordered_init
  books n := mapBooks_init
  backed k hk := absurd hk (by simp [init, packets])

theorem MapInv.progress (h : MapInv job s) : s.MapProgress where
  versions n := (h.books n).sound.versions
  reports n := (h.books n).sound.reports

/-- One site changes and hands over more outputs, and messages are sent. -/
theorem MapInv.change (h : MapInv job s) (ho : Ordered job s') {n : Int} {y : Site K M O B}
    (hsite : s'.site = update s.site n y)
    (hy : MapBooks job (Handed s.Mapped y.pc) y) (hm : (s.site n).pc.mapped ⊆ y.pc.mapped)
    (hk : ∀ k ∈ s'.packets ++ s'.delayed,
      k ∈ s.packets ++ s.delayed ∨ Wire.Backed job s.Mapped k.wire) : MapInv job s' := by
  have hself : s'.site n = y := by rw [hsite, update_self]
  have hmono : ∀ q w, s.Mapped q w → s'.Mapped q w := by
    rintro q w ⟨m, hmem⟩
    by_cases hmn : m = n
    · subst hmn
      exact ⟨m, hself.symm ▸ hm hmem⟩
    · refine ⟨m, ?_⟩
      rw [hsite, update_of_ne hmn]
      exact hmem
  have hhanded : ∀ q w, Handed s.Mapped y.pc q w → s'.Mapped q w := by
    rintro q w (hq | hq)
    · exact hmono q w hq
    · exact ⟨n, hself.symm ▸ hq⟩
  refine ⟨ho, fun m => ?_, fun k hmem => ?_⟩
  · rw [hsite]
    by_cases hmn : m = n
    · subst hmn
      rw [update_self]
      exact hy.mono hhanded
    · rw [update_of_ne hmn]
      exact (h.books m).mono hmono
  · rcases hk k hmem with hk | hk
    · exact (h.backed k hk).mono hmono
    · exact hk.mono hmono

/-- No site changes; what is under way was so before, or is no parcel. -/
theorem MapInv.move (h : MapInv job s) (ho : Ordered job s') (hsite : s'.site = s.site)
    (hk : ∀ k ∈ s'.packets ++ s'.delayed,
      k ∈ s.packets ++ s.delayed ∨ Wire.Backed job s.Mapped k.wire) : MapInv job s' := by
  refine h.change (n := 0) (y := s.site 0) ho ?_ ((h.books 0).mono fun q w hq => .inl hq)
    (List.Subset.refl _) hk
  rw [hsite, update_eq_self]

theorem mapInv_step [LinearOrder K] {e : MigrationEvent K M B} (h : MapInv job s)
    (he : s.Enabled job e) (ht : InTime job s e) (hs : step job s e = .ok s') :
    MapInv job s' := by
  have ho := ordered_step h.ordered he hs
  cases e with
  | migrate p toId =>
    cases hs
    refine h.move ho rfl fun k hk => ?_
    rw [(packets_migrate p toId).mem_iff] at hk
    refine (mem_append.mp hk).imp id fun hk => ?_
    obtain ⟨m, -, rfl⟩ := mem_map.mp hk
    exact trivial
  | arrive i =>
    simp only [step] at hs
    split at hs
    · cases hs
      exact h
    · next k hi =>
      cases hs
      exact h.move ho rfl fun k' hk' => .inl ((packets_arrive hi).mem_iff.mp hk')
  | handle i =>
    rcases step_handle hs with rfl | ⟨k, r, hi, hr, rfl⟩
    · exact h
    · have hperm := packets_taken hi r
      have hmem := hperm.mem_iff.mpr mem_cons_self
      have hrun : Wire.NoMap job (s.site k.dst) k.wire := by
        simp only [InTime, hi] at ht
        exact ht
      obtain ⟨hb, hm, hw⟩ := (h.books k.dst).handle (h.ordered.sited k.dst)
        (h.backed k hmem) hrun hr
      refine h.change ho (n := k.dst) (y := r.site) ?_ hb hm fun k' hk' => ?_
      · show update (s.taken i k r).site k.dst r.site = _
        rw [(taken_rest i k r).1]
      · exact (mem_put hk').imp (fun hk' => hperm.mem_iff.mpr (mem_cons_of_mem k hk')) (hw _)
  | push i =>
    simp only [step] at hs
    split at hs
    · cases hs
      exact h
    · next k hi =>
      cases hs
      exact h.move ho rfl fun k' hk' => .inl ((packets_push hi).mem_iff.mp hk')
  | send n key ids stream =>
    obtain ⟨r, hr, hs⟩ := bind_eq_ok.mp hs
    cases hs
    have hcases : MapBooks job s.Mapped r.site ∧ r.site.pc = (s.site n).pc ∧
        ∀ w ∈ r.wires, Wire.Backed job s.Mapped w := by
      obtain ⟨-, -, rfl⟩ | ⟨-, rfl⟩ := prepareMsgAndSend_eq_ok hr
      · refine ⟨⟨(h.books n).sound, (h.books n).behind⟩, rfl, ?_⟩
        simp [Handled.wires, Wire.Backed]
      · refine ⟨h.books n, rfl, ?_⟩
        simp [Handled.wires, Wire.Backed]
    refine h.change ho (n := n) (y := r.site) rfl (hcases.1.mono fun q w hq => .inl hq) ?_
      fun k hk => (mem_put hk).imp id fun hk => hcases.2.2 _ hk
    rw [hcases.2.1]
    exact List.Subset.refl _
  | act n a =>
    obtain ⟨y, hy, hs⟩ := bind_eq_ok.mp hs
    cases hs
    exact h.change ho (n := n) (y := y) rfl
      ((h.books n).act (h.ordered.sited n) ht.aborted hy) (mapped_act hy) fun k hk => .inl hk
  | finishLoadWith n p =>
    cases hs
    refine h.change ho (n := n) rfl ?_ (List.Subset.refl _) fun k hk => .inl hk
    exact ⟨(h.books n).sound.mono fun q w hq => .inl hq, (h.books n).behind⟩

/-- In every run in time a map version stands for outputs that were handed over; an aborted map
changes no version, and what is aborted is a map of a partition that is being moved away from
the node, or has left it. -/
theorem map_progress [LinearOrder K] (job : MapJoin K M O B) (s : Migrating K M O B)
    (hs : Reach (step job) (fun s e => s.Enabled job e ∧ InTime job s e) (init job) s) :
    s.MapProgress ∧
      ∀ n a s', s.Enabled job (.act n a) → InTime job s (.act n a) →
        step job s (.act n a) = .ok s' →
        (∀ i q, a = .process i → (s.site n).pc.workQueue[i]? = some (.kFinishMap q false) →
          (s'.site n).pc.mapVersions = (s.site n).pc.mapVersions) ∧
        ∀ q, (s'.site n).pc.workQueue = (s.site n).pc.workQueue ++ [.kFinishMap q false] →
          Same job ∧ ((∃ info, s.moving q = some info ∧ info.fromId = n) ∨
            q ∉ (s.site n).pc.mapVersions.keys) := by
  have h : MapInv job s := hs.induct (P := fun s => MapInv job s) mapInv_init
    fun _ _ _ _ h he hstep => mapInv_step h he.1 he.2 hstep
  refine ⟨h.progress, fun n a s' _ ht hstep => ?_⟩
  obtain ⟨y, hy, hstep⟩ := bind_eq_ok.mp hstep
  cases hstep
  have hself : ((s.set n y).site n) = y := update_self _ _ _
  rw [hself]
  refine ⟨fun i q ha hi => ?_, fun q hq => ?_⟩
  · subst ha
    exact mapVersions_act ht.aborted hy hi
  · obtain ⟨i, t, ha, hi, rfl, hstop⟩ := aborts_act hy hq
    have hsame : Same job := (ht.spared ha hi).resolve_right hstop
    refine ⟨hsame, ?_⟩
    cases hc : (s.site n).pc.stopUpdateingPartitions t.partId with
    | none => exact absurd hc hstop
    | some left =>
      cases left with
      | false =>
        exact .inl (h.ordered.moving_of_closed hc)
      | true => exact .inr ((h.books n).behind hsame _ hc).2

/-- Partition 0 leaves node 1 while its map runs there; the map is aborted when it is gone, and
node 2 maps it again. -/
def leftMap : List (MigrationEvent Int Int Int) :=
  [.act 1 .kStart, .act 2 .kStart, .act 1 (.beginMap 0), .migrate 0 2,
    .arrive 0, .handle 0, .arrive 0, .handle 0, .arrive 0, .handle 0, .arrive 0, .handle 0,
    .act 1 (.endMap 0), .act 1 (.process 0), .arrive 0, .handle 0, .act 2 (.beginMap 0),
    .act 2 (.endMap 0), .act 2 (.process 0), .act 2 (.beginMap 0), .act 2 (.endMap 0),
    .act 2 (.process 0)]

theorem map_progress_leftMap :
    ∃ s, run (step (twoNodes (-1) 1 0 (-1))) (init (twoNodes (-1) 1 0 (-1))) leftMap = .ok s ∧
      (s.site 2).pc.mapVersions.val 0 = 1 ∧ s.Mapped 0 0 := by
  have hok : RunOk (step (twoNodes (-1) 1 0 (-1)))
      (fun s e => s.Enabled (twoNodes (-1) 1 0 (-1)) e ∧ InTime (twoNodes (-1) 1 0 (-1)) s e)
      (init (twoNodes (-1) 1 0 (-1))) leftMap := by decide +kernel
  have hrun : Ends (step (twoNodes (-1) 1 0 (-1))) (init (twoNodes (-1) 1 0 (-1))) leftMap fun s =>
      0 ∈ (s.site 2).pc.mapVersions.keys ∧ (s.site 2).pc.mapVersions.val 0 = 1 := by
    decide +kernel
  obtain ⟨s, hs, hk, hv⟩ := hrun
  obtain ⟨hprogress, -⟩ := map_progress (twoNodes (-1) 1 0 (-1)) s (reach_of_run_ok leftMap hok hs)
  exact ⟨s, hs, hv, hprogress.versions 2 0 hk 0 (by decide) (by rw [hv]; decide)⟩

theorem ordered_reachable_leftMap :
    Ends (step (twoNodes (-1) 1 0 (-1))) (init (twoNodes (-1) 1 0 (-1))) leftMap
      (Ordered (twoNodes (-1) 1 0 (-1))) :=
  ⟨_, rfl, ordered_reachable (reach_of_run_ok leftMap (by decide +kernel) rfl)⟩

/-- Update partition 0 starts to leave node 1 while map partition 0 of another collection runs
there. -/
def sameId : List (MigrationEvent Int Int Int) :=
  [.act 1 .kStart, .act 1 (.beginMap 0), .migrate 0 2, .arrive 0, .handle 0,
    .act 1 (.endMap 0), .act 1 (.process 0)]

/-- The map is aborted, and counted and reported all the same. -/
theorem abortedMap_counts :
    RunOk (step (Combining.bothMaps (-1))) (Enabled (Combining.bothMaps (-1))) (init (Combining.bothMaps (-1))) sameId ∧
    Ends (step (Combining.bothMaps (-1))) (init (Combining.bothMaps (-1))) sameId fun s =>
      (s.site 1).pc.mapVersions.val 0 = 1 ∧
      ⟨.kMap, 1, 1, 0, 0⟩ ∈ (s.site 1).pc.toScheduler ∧
      ∀ n ∈ (Combining.bothMaps (-1)).nodes, (0, 0) ∉ (s.site n).pc.mapped := by
  decide +kernel

end Migrating

end Tangram
