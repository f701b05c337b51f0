import Tangram.Worker.Tracker

/-!
# Completed versions

`update_versions_[p]` counts the versions whose tracker has filled.  If every
output arrives once, the counted versions are distinct and each of them is fully
applied (`Once`).  That is not yet a prefix: with a staleness of 1 the outputs of
version 1 may complete before those of version 0 (`counted_before_complete`).  If
the outputs of every upstream partition arrive in the order of their versions,
the counter never runs ahead (`completed_versions_complete`).
-/

namespace Tangram

open StepRun Relation List Function VersionedJoinMeta
open scoped List

namespace PlanController

variable {β : Type} {c : Spec} {s s₁ s' : PlanController β} {m : JoinMeta β} {a : Action β}

/-- The output of `u` for version `v` of `p` is applied. -/
def Applied (s : PlanController β) (p v u : Int) : Prop :=
  ∃ m ∈ s.applied, m.Covers p v u

/-! ## The counter counts completions -/

theorem testsAt_covers (p v u : Int) :
    TestsAt p v (fun m : JoinMeta β => decide (m.Covers p v u)) :=
  fun _ hm => (of_decide_eq_true hm).1

def Counted (s : PlanController β) : Prop :=
  ∀ p, s.updateVersions.val p = s.completed.countP (·.1 = p)

theorem counted_completeVersion (h : Counted s) (q w : Int) : Counted (completeVersion s q w) := by
  intro p
  have hp := h p
  show (s.updateVersions.set q (s.updateVersions.val q + 1)).val p =
    (s.completed ++ [(q, w)]).countP (·.1 = p)
  rw [Table.val_set, countP_append, countP_singleton]
  by_cases hpq : p = q
  · subst hpq
    rw [if_pos rfl, if_pos (by simp)]
    omega
  · rw [if_neg hpq, if_neg (by simpa using Ne.symm hpq)]
    omega

theorem counted_stable : Stable c (Counted : PlanController β → Prop) where
  start := fun _ => rfl
  head s a s₁ h hh := by
    cases hh with
    | complete i q w ups hi hn | completeCheckpoint i q w ups hi hn =>
      exact counted_completeVersion (s := trackJoin (takeMsg s i) q w ups) h q w
    | _ => exact h
  tail s s' h ht := by cases ht <;> exact h

/-! ## Outputs that arrive once -/

/-- The outputs of the upstream partitions arrive, each once. -/
def ArrivesOnce (c : Spec) (s : PlanController β) : Action β → Prop
  | .kReceiveJoin m => 0 ≤ m.version ∧ ∀ u ∈ m.ids, 0 ≤ u ∧ u < c.numUpstreamPart ∧
      s.received.countP (·.Covers m.partId m.version u) = 0
  | _ => True

instance (s : PlanController β) : (a : Action β) → Decidable (ArrivesOnce c s a)
  | .kStart | .kReceiveJoin _ | .kFetchRequest _ | .releaseFetch _ | .kUpdateVersion _ | .beginMap _
  | .endMap _ | .execFetch _ | .process _ => by dsimp only [ArrivesOnce]; infer_instance

/-- What the arrivals have been. -/
structure Arrivals (c : Spec) (s : PlanController β) : Prop where
  range : ∀ m ∈ s.received, 0 ≤ m.version ∧ ∀ u ∈ m.ids, 0 ≤ u ∧ u < c.numUpstreamPart
  once : ∀ p v u, s.received.countP (·.Covers p v u) ≤ 1

theorem arrivals_head (hl : Layout c s) (h : Arrivals c s) (ha : ArrivesOnce c s a)
    (hh : Head c s a s₁) : Arrivals c s₁ := by
  have hrec := received_head hl hh
  cases a with
  | kReceiveJoin m =>
    by_cases hp : m.partId ∈ c.partitions c.updateCollectionId
    · rw [deliveries_kReceiveJoin hp] at hrec
      refine ⟨fun m' hm' => ?_, fun p v u => ?_⟩
      · rw [hrec] at hm'
        rcases mem_append.mp hm' with hm' | hm'
        · exact h.range m' hm'
        · rw [mem_singleton.mp hm']
          exact ⟨ha.1, fun u hu => ⟨(ha.2 u hu).1, (ha.2 u hu).2.1⟩⟩
      · rw [hrec, countP_append, countP_singleton]
        by_cases hc : m.Covers p v u
        · obtain ⟨⟨rfl, rfl⟩, hu⟩ := hc
          rw [(ha.2 u hu).2.2]
          split_ifs <;> omega
        · simpa [hc] using h.once p v u
    · have hnil : deliveries c [.kReceiveJoin m] = [] := by simp [deliveries, hp]
      rw [hnil, append_nil] at hrec
      exact ⟨hrec ▸ h.range, hrec ▸ h.once⟩
  | _ =>
    have hrec : s₁.received = s.received := hrec.trans (append_nil _)
    exact ⟨hrec ▸ h.range, hrec ▸ h.once⟩

theorem arrivals_tail (h : Arrivals c s) (ht : Tail c s s') : Arrivals c s' := by
  cases ht <;> exact { h with }

section Places

variable {s : PlanController β} {p v u : Int}

/-- What is somewhere has been received. -/
theorem mem_received (hs : Sound c s) {m : JoinMeta β}
    (hm : m ∈ s.pendingUpdates m.partId m.version ∨ m ∈ s.waitingJoins m.partId ∨
      m ∈ s.runningJoins ∨ m ∈ s.applied) : m ∈ s.received := by
  classical
  have hk := hs.kept m.partId m.version (fun m' => decide (m' = m)) fun m' hm' => by
    rw [of_decide_eq_true hm']
    exact ⟨rfl, rfl⟩
  unfold Kept at hk
  have hpos : ∀ l : List (JoinMeta β), m ∈ l → 0 < l.countP (fun m' => decide (m' = m)) :=
    fun l hl => countP_pos_iff.mpr ⟨m, hl, by simp⟩
  have hrec : 0 < s.received.countP (fun m' => decide (m' = m)) := by
    rcases hm with hm | hm | hm | hm <;> have := hpos _ hm <;> omega
  obtain ⟨m', hm', heq⟩ := countP_pos_iff.mp hrec
  exact of_decide_eq_true heq ▸ hm'

theorem applied_range (hs : Sound c s) (ha : Arrivals c s) (h : Applied s p v u) :
    0 ≤ v ∧ 0 ≤ u ∧ u < c.numUpstreamPart := by
  obtain ⟨m, hm, ⟨rfl, rfl⟩, hu⟩ := h
  obtain ⟨hv, hids⟩ := ha.range m (mem_received hs (.inr (.inr (.inr hm))))
  exact ⟨hv, hids u hu⟩

theorem countP_applied_pos (h : Applied s p v u) :
    0 < s.applied.countP (·.Covers p v u) := by
  obtain ⟨m, hm, hc⟩ := h
  exact countP_pos_iff.mpr ⟨m, hm, by simpa using hc⟩

/-- An output that waits or is being applied has not been applied. -/
theorem not_applied (hs : Sound c s) (ha : Arrivals c s)
    (hm : m ∈ s.waitingJoins m.partId ∨ m ∈ s.runningJoins) (hu : u ∈ m.ids) :
    ¬ Applied s m.partId m.version u := by
  intro happ
  have hk := hs.kept _ _ _ (testsAt_covers m.partId m.version u)
  have hone := ha.once m.partId m.version u
  have hpos := countP_applied_pos happ
  have hplace : ∀ l : List (JoinMeta β), m ∈ l →
      0 < l.countP (·.Covers m.partId m.version u) := fun l hl =>
    countP_pos_iff.mpr ⟨m, hl, by simpa [JoinMeta.Covers, JoinMeta.At] using hu⟩
  unfold Kept at hk
  rcases hm with hm | hm <;> have := hplace _ hm <;> omega

theorem mem_tracker_of_joined (h : isJoinedBefore s m = .ok true) :
    ∃ u ∈ m.ids, u ∈ s.updateTracker m.partId m.version := by
  unfold isJoinedBefore at h
  split at h
  · cases h
  · next w us hm =>
    obtain ⟨_, _, h⟩ := bind_eq_ok.mp h
    refine ⟨w, ?_, by simpa using Except.ok.inj h⟩
    rw [JoinMeta.ids, hm]
    exact mem_cons_self
  · next w hm =>
    refine ⟨w, ?_, by simpa using Except.ok.inj h⟩
    rw [JoinMeta.ids, hm]
    exact mem_cons_self

theorem tracker_applied (hs : Sound c s) (h : u ∈ s.updateTracker p v) : Applied s p v u :=
  (hs.tracked p v u).mp (.inl h)

/-- If every output arrives once, nothing that waits is a copy. -/
theorem not_joined_of_waiting (hs : Sound c s) (ha : Arrivals c s)
    (hm : .join m ∈ s.waitingUpdates p) : isJoinedBefore s m ≠ .ok true := by
  intro hj
  obtain ⟨u, hu, ht⟩ := mem_tracker_of_joined hj
  have hp : m.partId = p := (hs.layout.waiting p _ hm).1
  subst hp
  exact not_applied hs ha (.inl (mem_waitingJoins.mpr hm)) hu (tracker_applied hs ht)

theorem forgotten_applied (hs : Sound c s) (h : u ∈ s.forgotten p v) : Applied s p v u :=
  (hs.tracked p v u).mp (.inr (.inl h))

end Places

/-- No copy is ever seen, no output is recorded twice, and a version is counted once, when all
its outputs are applied. -/
structure Once (c : Spec) (s : PlanController β) : Prop extends Arrivals c s where
  noCopy : s.ignored = []
  tracker : ∀ p v, ∀ u ∈ s.updateTracker p v, u ∉ s.forgotten p v
  unprocessed : ∀ p v ups, .kFinishJoin p v ups ∈ s.workQueue → ∀ u ∈ ups,
    u ∉ s.updateTracker p v ∧ u ∉ s.forgotten p v
  full : ∀ p v, (p, v) ∈ s.completed →
    0 ≤ v ∧ ∀ u : Int, 0 ≤ u → u < c.numUpstreamPart → u ∈ s.forgotten p v
  distinct : s.completed.Nodup

/-- A full tracker holds every upstream partition. -/
theorem mem_of_card_eq {t : Finset Int} {n : Nat} (hr : ∀ u ∈ t, 0 ≤ u ∧ u < n)
    (hc : t.card = n) (u : Int) (h0 : 0 ≤ u) (hn : u < n) : u ∈ t := by
  have hsub : t ⊆ Finset.Ico 0 (n : Int) := fun x hx => Finset.mem_Ico.mpr (hr x hx)
  have heq : t = Finset.Ico 0 (n : Int) := by
    refine Finset.eq_of_subset_of_card_le hsub ?_
    rw [Int.card_Ico, hc]
    omega
  rw [heq]
  exact Finset.mem_Ico.mpr ⟨h0, hn⟩

/-- A partition whose update has ended is not updated or saved by anything else. -/
theorem not_inUse_of_msg {q : Int} {i : Nat} {e : Completion} (hx : Excl c s q)
    (hi : s.workQueue[i]? = some e) (he : e.use = .update q) : .update q ∉ (takeMsg s i).inUse := by
  intro hmem
  have hcount := (inUse_takeMsg s hi).count_eq (.update q)
  have hpos := count_pos_iff.mpr hmem
  have hone := hx.updates
  rw [he, count_cons_self] at hcount
  split_ifs at hone <;> omega

theorem msg_use_ne {q : Int} {i : Nat} {e e' : Completion} (hx : Excl c s q)
    (hi : s.workQueue[i]? = some e) (he : e.use = .update q) (he' : e' ∈ s.workQueue.eraseIdx i) :
    e'.use ≠ .update q := fun hu => not_inUse_of_msg hx hi he
  (mem_append_right _ (mem_append_right _ (mem_append_left _ (mem_map.mpr ⟨e', he', hu⟩))))

section Changes

variable {s : PlanController β} {i : Nat} {q w : Int} {ups : List Int}

theorem once_trackJoin (hs : Sound c s) (h : Once c s)
    (hi : s.workQueue[i]? = some (.kFinishJoin q w ups)) :
    Once c (trackJoin (takeMsg s i) q w ups) := by
  have hups := h.unprocessed q w ups (mem_of_getElem? hi)
  refine { h with tracker := fun p v u hu => ?_, unprocessed := fun p v ups' hm u hu => ?_ }
  · by_cases hp : p = q
    · subst hp
      by_cases hv : v = w
      · subst hv
        rw [trackJoin_tracker] at hu
        rcases Finset.mem_union.mp hu with hu | hu
        · exact h.tracker p v u hu
        · exact (hups u (mem_toFinset.mp hu)).2
      · simp only [trackJoin, takeMsg, update_self, update_of_ne hv] at hu
        exact h.tracker p v u hu
    · simp only [trackJoin, takeMsg, update_of_ne hp] at hu
      exact h.tracker p v u hu
  · have hne : p ≠ q := by
      rintro rfl
      exact msg_use_ne (hs.excl p) hi rfl hm rfl
    have hold := h.unprocessed p v ups' (mem_of_mem_eraseIdx hm) u hu
    simp only [trackJoin, takeMsg, update_of_ne hne]
    exact hold

theorem once_completeVersion (hn : 0 < c.numUpstreamPart) (h : Once c s)
    (hcard : (s.updateTracker q w).card = c.numUpstreamPart) (hw : 0 ≤ w)
    (hrange : ∀ u ∈ s.updateTracker q w, 0 ≤ u ∧ u < c.numUpstreamPart)
    (hfree : ∀ v ups, .kFinishJoin q v ups ∉ s.workQueue) : Once c (completeVersion s q w) := by
  have hfull := mem_of_card_eq hrange hcard
  have hnew : (q, w) ∉ s.completed := fun hmem =>
    h.tracker q w 0 (hfull 0 le_rfl (by omega)) ((h.full q w hmem).2 0 le_rfl (by omega))
  refine { h with tracker := ?_, unprocessed := ?_, full := ?_, distinct := ?_ }
  · intro p v u hu hf
    by_cases hpv : p = q ∧ v = w
    · obtain ⟨rfl, rfl⟩ := hpv
      simp [completeVersion] at hu
    · have hu : u ∈ s.updateTracker p v := by
        by_cases hp : p = q
        · subst hp
          have hv : v ≠ w := fun hv => hpv ⟨rfl, hv⟩
          simpa [completeVersion, update_of_ne hv] using hu
        · simpa [completeVersion, update_of_ne hp] using hu
      rcases forgotten_completeVersion hf with hf | ⟨hp, hv, -⟩
      · exact h.tracker p v u hu hf
      · exact hpv ⟨hp, hv⟩
  · intro p v ups hm u hu
    have hne : p ≠ q := by
      rintro rfl
      exact hfree v ups hm
    have hold := h.unprocessed p v ups hm u hu
    simp only [completeVersion, update_of_ne hne]
    exact hold
  · intro p v hm
    have hmono : s.forgotten p v ⊆ (completeVersion s q w).forgotten p v := by
      intro u hu
      by_cases hp : p = q
      · subst hp
        by_cases hv : v = w
        · subst hv
          simp [completeVersion, hu]
        · simpa [completeVersion, update_of_ne hv] using hu
      · simpa [completeVersion, update_of_ne hp] using hu
    rcases mem_append.mp hm with hm | hm
    · obtain ⟨hv, hall⟩ := h.full p v hm
      exact ⟨hv, fun u h0 hu => hmono (hall u h0 hu)⟩
    · obtain ⟨rfl, rfl⟩ := Prod.mk.inj (mem_singleton.mp hm)
      refine ⟨hw, fun u h0 hu => ?_⟩
      simp [completeVersion, hfull u h0 hu]
  · show (s.completed ++ [(q, w)]).Nodup
    rw [nodup_append]
    refine ⟨h.distinct, nodup_singleton _, fun a ha b hb => ?_⟩
    rw [mem_singleton.mp hb]
    rintro rfl
    exact hnew ha

theorem once_complete (hn : 0 < c.numUpstreamPart) (hs : Sound c s) (h : Once c s)
    (hi : s.workQueue[i]? = some (.kFinishJoin q w ups))
    (hcard : (s.updateTracker q w ∪ ups.toFinset).card = c.numUpstreamPart) :
    Once c (completeVersion (trackJoin (takeMsg s i) q w ups) q w) := by
  have happ : ∀ u ∈ s.updateTracker q w ∪ ups.toFinset, Applied s q w u := by
    intro u hu
    rcases Finset.mem_union.mp hu with hu | hu
    · exact tracker_applied hs hu
    · exact (hs.tracked q w u).mp
        (.inr (.inr ⟨ups, mem_of_getElem? hi, mem_toFinset.mp hu⟩))
  have hw : 0 ≤ w := by
    obtain ⟨u, hu⟩ := Finset.card_pos.mp (hcard ▸ hn)
    exact (applied_range hs h.toArrivals (happ u hu)).1
  refine once_completeVersion hn (once_trackJoin hs h hi) ?_ hw (fun u hu => ?_) fun v ups' hm => ?_
  · rw [trackJoin_tracker]
    exact hcard
  · rw [trackJoin_tracker] at hu
    exact (applied_range hs h.toArrivals (happ u hu)).2
  · exact msg_use_ne (hs.excl q) hi rfl hm rfl

theorem once_setMinVersion (h : Once c s) (n : Int) : Once c (setMinVersion s n) := by
  refine { h with tracker := fun p v u hu => ?_, unprocessed := fun p v ups hm u hu => ?_,
                  full := fun p v hm => ?_ }
  · simp only [setMinVersion] at hu ⊢
    split_ifs at hu ⊢ with hv
    · cases hu
    · exact h.tracker p v u hu
  · obtain ⟨h₁, h₂⟩ := h.unprocessed p v ups hm u hu
    simp only [setMinVersion]
    split_ifs with hv
    · exact ⟨Finset.notMem_empty u, fun hf => (Finset.mem_union.mp hf).elim h₂ h₁⟩
    · exact ⟨h₁, h₂⟩
  · obtain ⟨hv, hall⟩ := h.full p v hm
    refine ⟨hv, fun u h0 hu => ?_⟩
    have hf := hall u h0 hu
    simp only [setMinVersion]
    split_ifs
    · exact Finset.mem_union_left _ hf
    · exact hf

/-- A completion that records nothing enters the work queue. -/
theorem unprocessed_push (h : Once c s) {e : Completion} (he : ∀ p v ups, e ≠ .kFinishJoin p v ups) :
    ∀ p v ups, .kFinishJoin p v ups ∈ s.workQueue ++ [e] → ∀ u ∈ ups,
      u ∉ s.updateTracker p v ∧ u ∉ s.forgotten p v := by
  intro p v ups hm
  rcases mem_append.mp hm with hm | hm
  · exact h.unprocessed p v ups hm
  · exact absurd (mem_singleton.mp hm).symm (he p v ups)

end Changes

theorem once_head (hn : 0 < c.numUpstreamPart) (hs : Sound c s) (h : Once c s)
    (ha : ArrivesOnce c s a) (hh : Head c s a s₁) : Once c s₁ := by
  have harr := arrivals_head hs.layout h.toArrivals ha hh
  have htake : ∀ i p v ups, .kFinishJoin p v ups ∈ s.workQueue.eraseIdx i → ∀ u ∈ ups,
      u ∉ s.updateTracker p v ∧ u ∉ s.forgotten p v :=
    fun i p v ups hm => h.unprocessed p v ups (mem_of_mem_eraseIdx hm)
  cases hh with
  | ignoreJoin m hk hj =>
    -- a copy would have been received before
    obtain ⟨u, hu, ht⟩ := mem_tracker_of_joined hj
    have hkept := hs.kept _ _ _ (testsAt_covers m.partId m.version u)
    have hpos := countP_applied_pos (tracker_applied hs ht)
    have hzero := (ha.2 u hu).2.2
    unfold Kept at hkept
    omega
  | updateVersion n hlt hv => exact once_setMinVersion h n
  | abortBegin i t hi hst | abortEnd i t hi hst | endMap i t hi hst | execCheckpoint i q iter hi =>
    exact { h with unprocessed := unprocessed_push h (by simp) }
  | execFetch i f v hi => exact { h with unprocessed := unprocessed_push h (by simp) }
  | execJoin i m hi =>
    refine { h with unprocessed := fun p v ups hm u hu => ?_ }
    rcases mem_append.mp hm with hm | hm
    · exact h.unprocessed p v ups hm u hu
    · obtain ⟨rfl, rfl, rfl⟩ := Completion.kFinishJoin.inj (mem_singleton.mp hm)
      have hrun : m ∈ s.runningJoins :=
        mem_filterMap.mpr ⟨_, mem_of_getElem? hi, rfl⟩
      have hno := not_applied hs h.toArrivals (.inr hrun) hu
      exact ⟨fun ht => hno (tracker_applied hs ht), fun hf => hno (forgotten_applied hs hf)⟩
  | finishMapGone i q b hi hk => exact { h with unprocessed := htake i }
  | finishMap i q b hi hk hc => exact { h with unprocessed := htake i }
  | finishMapJoin i q b hi hk hc => exact { h with unprocessed := htake i }
  | trackJoin i q w ups hi hc => exact once_trackJoin hs h hi
  | complete i q w ups hi hc => exact { once_complete hn hs h hi hc with }
  | completeCheckpoint i q w ups hi hc => exact { once_complete hn hs h hi hc with }
  | finishFetch i q u hi => exact { h with unprocessed := htake i }
  | finishCheckpoint i q hi hr => exact { h with unprocessed := htake i }
  | _ =>
    exact { harr with
      noCopy := h.noCopy
      tracker := h.tracker
      unprocessed := h.unprocessed
      full := h.full
      distinct := h.distinct }

theorem once_tail (hs : Sound c s) (h : Once c s) (ht : Tail c s s') : Once c s' := by
  cases ht with
  | popDuplicate p m rest hq hb hj =>
    exact absurd hj (not_joined_of_waiting hs h.toArrivals (hq ▸ mem_cons_self))
  | _ => exact { h with }

/-! ## Outputs that arrive in order -/

/-- Every message of a queue finds the outputs of its upstream partitions for all lower versions
done (`cov`) or ahead of it. -/
def Ready (cov : Int → Int → Prop) : List (JoinMeta β) → Prop
  | [] => True
  | m :: ms => (∀ u ∈ m.ids, ∀ w, 0 ≤ w → w < m.version → cov w u) ∧
      Ready (fun w u => cov w u ∨ m.version = w ∧ u ∈ m.ids) ms

theorem Ready.mono {cov cov' : Int → Int → Prop} {l : List (JoinMeta β)} (h : Ready cov l)
    (hcov : ∀ w u, cov w u → cov' w u) : Ready cov' l := by
  induction l generalizing cov cov' with
  | nil => trivial
  | cons m ms ih =>
    exact ⟨fun u hu w h0 hw => hcov w u (h.1 u hu w h0 hw),
      ih h.2 fun w u hc => hc.imp_left (hcov w u)⟩

theorem ready_append {cov : Int → Int → Prop} {l l' : List (JoinMeta β)} (h : Ready cov l)
    (h' : ∀ m ∈ l', ∀ u ∈ m.ids, ∀ w, 0 ≤ w → w < m.version →
      cov w u ∨ ∃ m' ∈ l, m'.version = w ∧ u ∈ m'.ids) : Ready cov (l ++ l') := by
  induction l generalizing cov with
  | nil =>
    have hall : ∀ m ∈ l', ∀ u ∈ m.ids, ∀ w, 0 ≤ w → w < m.version → cov w u := by
      intro m hm u hu w h0 hw
      rcases h' m hm u hu w h0 hw with hc | ⟨m', hm', -⟩
      · exact hc
      · cases hm'
    clear h'
    induction l' generalizing cov with
    | nil => trivial
    | cons m ms ih =>
      exact ⟨hall m mem_cons_self, ih trivial fun m' hm' u hu w h0 hw =>
        .inl (hall m' (mem_cons_of_mem _ hm') u hu w h0 hw)⟩
  | cons m ms ih =>
    refine ⟨h.1, ih h.2 fun m₁ hm₁ u hu w h0 hw => ?_⟩
    rcases h' m₁ hm₁ u hu w h0 hw with hc | ⟨m', hm', hcov⟩
    · exact .inl (.inl hc)
    · rcases mem_cons.mp hm' with rfl | hm'
      · exact .inl (.inr hcov)
      · exact .inr ⟨m', hm', hcov⟩

/-- The output is applied or being applied. -/
def Started (s : PlanController β) (p w u : Int) : Prop :=
  Applied s p w u ∨ ∃ m ∈ s.runningJoins, m.Covers p w u

/-- The outputs of every upstream partition arrive once and in the order of their versions. -/
def ArrivesInOrder (c : Spec) (s : PlanController β) : Action β → Prop
  | .kReceiveJoin m => ArrivesOnce c s (.kReceiveJoin m) ∧
      ∀ u ∈ m.ids, ∀ w < m.version.toNat, ∃ m' ∈ s.received, m'.Covers m.partId w u
  | _ => True

instance (s : PlanController β) : (a : Action β) → Decidable (ArrivesInOrder c s a)
  | .kStart | .kReceiveJoin _ | .kFetchRequest _ | .releaseFetch _ | .kUpdateVersion _ | .beginMap _
  | .endMap _ | .execFetch _ | .process _ => by dsimp only [ArrivesInOrder]; infer_instance

theorem arrivesOnce_of_inOrder (h : ArrivesInOrder c s a) : ArrivesOnce c s a := by
  cases a with
  | kReceiveJoin m => exact h.1
  | _ => trivial

/-- The order of arrival is kept on the way to the partition. -/
structure InOrder (s : PlanController β) : Prop where
  received : ∀ m ∈ s.received, ∀ u ∈ m.ids, ∀ w, 0 ≤ w → w < m.version →
    ∃ m' ∈ s.received, m'.Covers m.partId w u
  waiting : ∀ p, Ready (Started s p) (s.waitingJoins p)
  running : ∀ m ∈ s.runningJoins, ∀ u ∈ m.ids, ∀ w, 0 ≤ w → w < m.version →
    Applied s m.partId w u
  applied : ∀ m ∈ s.applied, ∀ u ∈ m.ids, ∀ w, 0 ≤ w → w < m.version → Applied s m.partId w u

section Order

variable {s s' : PlanController β} {p w u : Int}

/-- Where a received output is. -/
theorem located (hs : Sound c s) (h : Once c s) (hr : ∃ m ∈ s.received, m.Covers p w u) :
    s.pendingUpdates p w ≠ [] ∨ (∃ m ∈ s.waitingJoins p, m.version = w ∧ u ∈ m.ids) ∨
      Started s p w u := by
  obtain ⟨m, hm, hc⟩ := hr
  have hpos : 0 < s.received.countP (·.Covers p w u) :=
    countP_pos_iff.mpr ⟨m, hm, by simpa using hc⟩
  have hk := hs.kept p w _ (testsAt_covers p w u)
  unfold Kept at hk
  rw [h.noCopy, countP_nil] at hk
  by_cases hpend : s.pendingUpdates p w = []
  · rw [hpend, countP_nil] at hk
    by_cases hwait : 0 < (s.waitingJoins p).countP (·.Covers p w u)
    · obtain ⟨m', hm', hc'⟩ := countP_pos_iff.mp hwait
      obtain ⟨⟨-, hv⟩, hu⟩ : m'.Covers p w u := by simpa using hc'
      exact .inr (.inl ⟨m', hm', hv, hu⟩)
    · by_cases hrun : 0 < s.runningJoins.countP (·.Covers p w u)
      · obtain ⟨m', hm', hc'⟩ := countP_pos_iff.mp hrun
        exact .inr (.inr (.inr ⟨m', hm', by simpa using hc'⟩))
      · have happ : 0 < s.applied.countP (·.Covers p w u) := by omega
        obtain ⟨m', hm', hc'⟩ := countP_pos_iff.mp happ
        exact .inr (.inr (.inl ⟨m', hm', by simpa using hc'⟩))
  · exact .inl hpend

/-- A message whose turn has come finds all lower versions ahead of it. -/
theorem ready_enqueue (hs : Sound c s) (h : Once c s) {ms : List (JoinMeta β)}
    (hr : Ready (Started s p) (s.waitingJoins p))
    (hms : ∀ m ∈ ms, ∀ u ∈ m.ids, ∀ w, 0 ≤ w → w < m.version →
      ∃ m' ∈ s.received, m'.Covers p w u)
    (hv : ∀ m ∈ ms, c.mapCollectionId = c.updateCollectionId → m.version ≤ s.mapVersions.val p) :
    Ready (Started s p) (s.waitingJoins p ++ ms) := by
  refine ready_append hr fun m hm u hu w h0 hw => ?_
  rcases located hs h (hms m hm u hu w h0 hw) with hpend | hwait | hstart
  · obtain ⟨hc, hle⟩ := hs.pendingOk p w hpend
    have := hv m hm hc
    omega
  · exact .inr hwait
  · exact .inl hstart

theorem started_mono (ha : ∀ m ∈ s.applied, m ∈ s'.applied)
    (hr : ∀ m ∈ s.runningJoins, m ∈ s'.runningJoins ∨ m ∈ s'.applied) (h : Started s p w u) :
    Started s' p w u := by
  rcases h with ⟨m, hm, hc⟩ | ⟨m, hm, hc⟩
  · exact .inl ⟨m, ha m hm, hc⟩
  · rcases hr m hm with hm | hm
    · exact .inr ⟨m, hm, hc⟩
    · exact .inl ⟨m, hm, hc⟩

/-- The queues stay in order when the updates go on. -/
theorem InOrder.of_progress (h : InOrder s) (hrec : s'.received = s.received)
    (hw : ∀ p, s'.waitingJoins p = s.waitingJoins p) (ha : s'.applied = s.applied)
    (hr : ∀ m, m ∈ s'.runningJoins ↔ m ∈ s.runningJoins) : InOrder s' where
  received := by rw [hrec]; exact h.received
  waiting p := by
    rw [hw]
    exact (h.waiting p).mono fun w u => started_mono (fun m hm => ha ▸ hm)
      fun m hm => .inl ((hr m).mpr hm)
  running m hm := by
    unfold Applied
    rw [ha]
    exact h.running m ((hr m).mp hm)
  applied := by
    unfold Applied
    rw [ha]
    exact h.applied

end Order

/-- How a head change acts on the joins that run, unless it executes one. -/
theorem mem_runningJoins_erase {i : Nat} {t : FetchTask β} (hi : s.fetchExecutor[i]? = some t)
    (m : JoinMeta β) :
    m ∈ s.runningJoins ↔
      t = .join m ∨ m ∈ (s.fetchExecutor.eraseIdx i).filterMap FetchTask.join? := by
  unfold runningJoins
  rw [((perm_cons_of_getElem? hi).filterMap FetchTask.join?).mem_iff]
  cases t with
  | join m' => simp [FetchTask.join?, eq_comm]
  | checkpoint p iter => simp [FetchTask.join?]
  | fetch f v => simp [FetchTask.join?]

theorem received_inOrder (h : InOrder s) (ha : ArrivesInOrder c s (.kReceiveJoin m)) :
    ∀ m' ∈ s.received ++ [m], ∀ u ∈ m'.ids, ∀ w, 0 ≤ w → w < m'.version →
      ∃ m'' ∈ s.received ++ [m], m''.Covers m'.partId w u := by
  intro m' hm' u hu w h0 hw
  have hold : ∃ m'' ∈ s.received, m''.Covers m'.partId w u := by
    rcases mem_append.mp hm' with hm' | hm'
    · exact h.received m' hm' u hu w h0 hw
    · rw [mem_singleton.mp hm'] at hu hw ⊢
      have := ha.2 u hu w.toNat (by omega)
      rwa [Int.toNat_of_nonneg h0] at this
  obtain ⟨m'', hm'', hc⟩ := hold
  exact ⟨m'', mem_append_left _ hm'', hc⟩

theorem waitingJoins_pushWaiting (s : PlanController β) (q : Int) (e : VersionedJoinMeta β)
    (p : Int) : (s.pushWaiting q e).waitingJoins p =
      if p = q then s.waitingJoins p ++ e.join?.toList else s.waitingJoins p := by
  by_cases hp : p = q
  · subst hp
    cases e <;> simp [pushWaiting, setWaiting, waitingJoins, join?]
  · simp [pushWaiting, setWaiting, waitingJoins, hp]

theorem waitingJoins_releasePending (s : PlanController β) (q w p : Int) :
    (releasePending s q w).waitingJoins p =
      if p = q then s.waitingJoins p ++ s.pendingUpdates p w else s.waitingJoins p := by
  by_cases hp : p = q
  · subst hp
    simp [releasePending, waitingJoins, filterMap_map, Function.comp_def,
      join?]
  · simp [releasePending, waitingJoins, hp]

theorem inOrder_waitJoin (hs : Sound c s) (h₁ : Once c s) (h : InOrder s)
    (ha : ArrivesInOrder c s (.kReceiveJoin m))
    (hv : c.mapCollectionId = c.updateCollectionId → m.version < s.mapVersions.val m.partId) :
    InOrder (pushWaiting { s with received := s.received ++ [m] } m.partId (.join m)) where
  received := received_inOrder h ha
  waiting p := by
    have hq := waitingJoins_pushWaiting s m.partId (.join m) p
    have hready : Ready (Started s p) ((s.pushWaiting m.partId (.join m)).waitingJoins p) := by
      rw [hq]
      split_ifs with hp
      · subst hp
        refine ready_enqueue hs h₁ (h.waiting _) (fun m' hm' u hu w h0 hw => ?_)
          fun m' hm' hc => ?_
        · rw [mem_singleton.mp hm'] at hu hw
          have := ha.2 u hu w.toNat (by omega)
          rwa [Int.toNat_of_nonneg h0] at this
        · rw [mem_singleton.mp hm']
          exact le_of_lt (hv hc)
      · exact h.waiting p
    exact hready
  running := h.running
  applied := h.applied

theorem inOrder_releasePending {s : PlanController β} (hs : Sound c s) (h₁ : Once c s)
    (h : InOrder s) (q : Int) (p : Int) :
    Ready (Started s p) ((releasePending s q (s.mapVersions.val q)).waitingJoins p) := by
  rw [waitingJoins_releasePending]
  split_ifs with hp
  · subst hp
    have hpend : ∀ m ∈ s.pendingUpdates p (s.mapVersions.val p),
        m.partId = p ∧ m.version = s.mapVersions.val p := fun m hm =>
      ⟨(hs.layout.pending _ _ m hm).1, (hs.layout.pending _ _ m hm).2.1⟩
    refine ready_enqueue hs h₁ (h.waiting p) (fun m hm u hu w h0 hw => ?_) fun m hm _ => ?_
    · have hrec : m ∈ s.received := by
        refine mem_received hs (.inl ?_)
        rw [(hpend m hm).1, (hpend m hm).2]
        exact hm
      have := h.received m hrec u hu w h0 hw
      rwa [(hpend m hm).1] at this
    · rw [(hpend m hm).2]
  · exact h.waiting p

theorem inOrder_execJoin {i : Nat} (h : InOrder s) (hi : s.fetchExecutor[i]? = some (.join m)) :
    InOrder { taskDone s i (.kFinishJoin m.partId m.version m.ids) with
      applied := s.applied ++ [m] } := by
  have hmem := mem_runningJoins_erase hi
  have hrun : m ∈ s.runningJoins := (hmem m).mpr (.inl rfl)
  have happ : ∀ p w u, Applied s p w u → ∃ m' ∈ s.applied ++ [m], m'.Covers p w u :=
    fun p w u ⟨m', hm', hc⟩ => ⟨m', mem_append_left _ hm', hc⟩
  refine ⟨h.received, fun p => ?_, fun m' hm' u hu w h0 hw => ?_, fun m' hm' u hu w h0 hw => ?_⟩
  · refine (h.waiting p).mono fun w u => started_mono (fun m' hm' => ?_) fun m' hm' => ?_
    · exact mem_append_left _ hm'
    · rcases (hmem m').mp hm' with heq | hm'
      · cases heq
        exact .inr (mem_append_right _ mem_cons_self)
      · exact .inl hm'
  · exact happ _ _ _ (h.running m' ((hmem m').mpr (.inr hm')) u hu w h0 hw)
  · rcases mem_append.mp hm' with hm' | hm'
    · exact happ _ _ _ (h.applied m' hm' u hu w h0 hw)
    · rw [mem_singleton.mp hm'] at hu hw ⊢
      exact happ _ _ _ (h.running m hrun u hu w h0 hw)

theorem inOrder_head (hs : Sound c s) (h₁ : Once c s) (h : InOrder s) (ha : ArrivesInOrder c s a)
    (hh : Head c s a s₁) : InOrder s₁ := by
  cases hh with
  | ignoreJoin m hk hj => exact { h with received := received_inOrder h ha }
  | pendJoin m hk hj hc hv => exact { h with received := received_inOrder h ha }
  | waitJoin m hk hj hv => exact inOrder_waitJoin hs h₁ h ha hv
  | runFetch f hp hf hr =>
    refine h.of_progress rfl (fun _ => rfl) rfl fun m => ?_
    rw [runningJoins_runFetchRequest]
  | waitFetch f hk hf hc hr =>
    refine h.of_progress rfl (fun p => ?_) rfl fun m => Iff.rfl
    rw [waitingJoins_pushWaiting]
    simp [join?]
  | execJoin i m hi => exact inOrder_execJoin h hi
  | execCheckpoint i q iter hi | execFetch i f v hi =>
    refine h.of_progress rfl (fun _ => rfl) rfl fun m => ?_
    rw [mem_runningJoins_erase hi]
    exact (or_iff_right (by simp)).symm
  | finishMapJoin i q b hi hk hc =>
    exact { h with waiting := fun p => inOrder_releasePending hs h₁ h q p }
  | completeCheckpoint i q w ups hi hn =>
    refine h.of_progress rfl (fun _ => rfl) rfl fun m => ?_
    show m ∈ (s.fetchExecutor ++ [_]).filterMap FetchTask.join? ↔ _
    rw [filterMap_append]
    show m ∈ s.runningJoins ++ [] ↔ _
    rw [append_nil]
  | _ => exact { h with }

/-- The first of the queue starts: everything it needs is applied, since nothing else runs. -/
theorem inOrder_popJoin {q : Int} {rest : List (VersionedJoinMeta β)} (hs : Sound c s)
    (h : InOrder s) (hq : s.waitingUpdates q = .join m :: rest) (hb : ¬ Blocked c s q) :
    InOrder { s.setWaiting q rest with
      runningUpdates := update s.runningUpdates m.partId (some m.upstream.partId)
      fetchExecutor := s.fetchExecutor ++ [.join m] } := by
  have hm : m.partId = q := (hs.layout.waiting q (.join m) (hq ▸ mem_cons_self)).1
  subst hm
  have hrun : ∀ m', m' ∈ (s.fetchExecutor ++ [FetchTask.join m]).filterMap FetchTask.join? ↔
      m' ∈ s.runningJoins ∨ m' = m := by
    intro m'
    rw [filterMap_append, mem_append]
    exact or_congr_right mem_singleton
  have hwait : s.waitingJoins m.partId = m :: rest.filterMap join? := by
    unfold waitingJoins
    rw [hq]
    rfl
  have hready := h.waiting m.partId
  rw [hwait] at hready
  refine ⟨h.received, fun p => ?_, fun m' hm' u hu w h0 hw => ?_, h.applied⟩
  · by_cases hp : p = m.partId
    · subst hp
      have hnew : waitingJoins (s.setWaiting m.partId rest) m.partId =
          rest.filterMap join? := by
        simp [waitingJoins, setWaiting]
      show Ready _ ((s.setWaiting m.partId rest).waitingJoins m.partId)
      rw [hnew]
      refine hready.2.mono fun w u hc => ?_
      rcases hc with hc | ⟨hv, hu⟩
      · exact started_mono (s := s) (fun m' hm' => hm')
          (fun m' hm' => .inl ((hrun m').mpr (.inl hm'))) hc
      · exact .inr ⟨m, (hrun m).mpr (.inr rfl), ⟨rfl, hv⟩, hu⟩
    · have hsame : waitingJoins (s.setWaiting m.partId rest) p = s.waitingJoins p := by
        simp [waitingJoins, setWaiting, update_of_ne hp]
      show Ready _ ((s.setWaiting m.partId rest).waitingJoins p)
      rw [hsame]
      exact (h.waiting p).mono fun w u => started_mono (s := s) (fun m' hm' => hm')
        fun m' hm' => .inl ((hrun m').mpr (.inl hm'))
  · rcases (hrun m').mp hm' with hm' | rfl
    · exact h.running m' hm' u hu w h0 hw
    · rcases hready.1 u hu w h0 hw with happ | ⟨m₁, hm₁, ⟨hp, -⟩, -⟩
      · exact happ
      · -- another update of the partition would block it
        obtain ⟨t, ht, htm⟩ := mem_filterMap.mp hm₁
        have htask : t.use = .update m'.partId := by
          cases t with
          | join m₂ => cases htm; rw [← hp]; rfl
          | checkpoint _ _ => cases htm
          | fetch _ _ => cases htm
        have huse : Use.update m'.partId ∈ s.inUse :=
          mem_append_left _ (mem_map.mpr ⟨t, ht, htask⟩)
        exact absurd (.inl ((hs.excl m'.partId).running huse)) hb

theorem inOrder_tail (hs : Sound c s) (h₁ : Once c s) (h : InOrder s) (ht : Tail c s s') :
    InOrder s' := by
  cases ht with
  | launch p hr hp => exact { h with }
  | popDuplicate p m rest hq hb hj =>
    exact absurd hj (not_joined_of_waiting hs h₁.toArrivals (hq ▸ mem_cons_self))
  | popFetch q f rest hq hb =>
    refine h.of_progress rfl (fun p => ?_) rfl fun m => ?_
    · by_cases hp : p = q
      · subst hp
        show (update s.waitingUpdates p rest p).filterMap join? =
          (s.waitingUpdates p).filterMap join?
        rw [update_self, hq]
        rfl
      · simp [waitingJoins, runFetchRequest, addRunningFetch, setWaiting,
          update_of_ne hp]
    · rw [runningJoins_runFetchRequest]
      rfl
  | popJoin q m rest hq hb hj hr => exact inOrder_popJoin hs h hq hb

/-- The versions of `p` that were counted. -/
def countedVersions (s : PlanController β) (p : Int) : List Int :=
  (s.completed.filter (·.1 = p)).map (·.2)

theorem mem_countedVersions {p v : Int} : v ∈ s.countedVersions p ↔ (p, v) ∈ s.completed := by
  unfold countedVersions
  rw [mem_map]
  constructor
  · rintro ⟨⟨p', v'⟩, hx, rfl⟩
    obtain ⟨hx, hp⟩ := mem_filter.mp hx
    have hp : p' = p := by simpa using hp
    exact hp ▸ hx
  · intro h
    exact ⟨(p, v), mem_filter.mpr ⟨h, by simp⟩, rfl⟩

theorem countedVersions_nodup (h : Once c s) (p : Int) : (s.countedVersions p).Nodup := by
  refine List.Nodup.map_on ?_ (h.distinct.filter _)
  rintro ⟨p₁, v₁⟩ h₁ ⟨p₂, v₂⟩ h₂ heq
  have hp₁ : p₁ = p := by simpa using (mem_filter.mp h₁).2
  have hp₂ : p₂ = p := by simpa using (mem_filter.mp h₂).2
  rw [hp₁, hp₂, show v₁ = v₂ from heq]

theorem length_countedVersions (hc : Counted s) (p : Int) :
    (s.countedVersions p).length = s.updateVersions.val p := by
  rw [hc p, countedVersions, length_map, countP_eq_length_filter]

/-- `k` distinct versions reach up to `k - 1` at least. -/
theorem exists_counted_ge (h : Once c s) (hc : Counted s) {p w : Int}
    (hw : w < s.updateVersions.val p) (h0 : 0 ≤ w) : ∃ v, (p, v) ∈ s.completed ∧ w ≤ v := by
  by_contra hno
  push Not at hno
  have hsub : (s.countedVersions p).toFinset ⊆ Finset.Ico 0 w := by
    intro v hv
    have hv := mem_countedVersions.mp (mem_toFinset.mp hv)
    exact Finset.mem_Ico.mpr ⟨(h.full p v hv).1, hno v hv⟩
  have hcard := Finset.card_le_card hsub
  rw [toFinset_card_of_nodup (countedVersions_nodup h p), Int.card_Ico] at hcard
  have := length_countedVersions hc p
  omega

/-- `k` distinct versions below `k` are all of these. -/
theorem counted_of_lt (h : Once c s) (hc : Counted s) {p k : Int} (hk : k ≤ s.updateVersions.val p)
    (hlt : ∀ v, (p, v) ∈ s.completed → v < k) {w : Int} (h0 : 0 ≤ w) (hw : w < k) :
    (p, w) ∈ s.completed := by
  have hsub : (s.countedVersions p).toFinset ⊆ Finset.Ico 0 k := by
    intro v hv
    have hv := mem_countedVersions.mp (mem_toFinset.mp hv)
    exact Finset.mem_Ico.mpr ⟨(h.full p v hv).1, hlt v hv⟩
  have hcard : (Finset.Ico 0 k).card ≤ (s.countedVersions p).toFinset.card := by
    rw [toFinset_card_of_nodup (countedVersions_nodup h p), Int.card_Ico]
    have := length_countedVersions hc p
    omega
  have hmem : w ∈ (s.countedVersions p).toFinset := by
    rw [Finset.eq_of_subset_of_card_le hsub hcard]
    exact Finset.mem_Ico.mpr ⟨h0, hw⟩
  exact mem_countedVersions.mp (mem_toFinset.mp hmem)

/-- Nothing is applied before anything has arrived. -/
theorem once_setup : Once c (setup c : PlanController β) :=
  ⟨⟨by simp [setup], by simp [setup]⟩, rfl, by simp [setup], by simp [setup], by simp [setup],
    nodup_nil⟩

/-- **Completed versions are complete.**  If the outputs of every upstream partition arrive in
the order of their versions, then all outputs of all versions below `update_versions_[p]` are
applied to `p`. -/
theorem completed_versions_complete (c : Spec) (s : PlanController β)
    (hs : ReachIf c (ArrivesInOrder c) s) (p w u : Int) (h0 : 0 ≤ w)
    (hw : w < s.updateVersions.val p) (hu0 : 0 ≤ u) (hu : u < c.numUpstreamPart) :
    ∃ m ∈ s.applied, m.Covers p w u := by
  have hn : 0 < c.numUpstreamPart := by omega
  obtain ⟨hsound, honce, horder⟩ := reachIf_induct
    (P := fun s : PlanController β => Once c s ∧ InOrder s) hs sound_stable
    ⟨once_setup, ⟨by simp [setup], fun _ => trivial, by simp [setup, runningJoins],
      by simp [setup]⟩⟩
    (fun s a s₁ hB h ha hh => ⟨once_head hn hB h.1 (arrivesOnce_of_inOrder ha) hh,
      inOrder_head hB h.1 h.2 ha hh⟩)
    (fun s s' hB h ht => ⟨once_tail hB h.1 ht, inOrder_tail hB h.1 h.2 ht⟩)
  obtain ⟨v, hv, hle⟩ := exists_counted_ge honce (counted_stable.reachIf hs) hw h0
  obtain ⟨m, hm, ⟨rfl, rfl⟩, hmu⟩ := forgotten_applied hsound ((honce.full p v hv).2 u hu0 hu)
  rcases lt_or_eq_of_le hle with hlt | rfl
  · exact horder.applied m hm u hmu w h0 hlt
  · exact ⟨m, hm, ⟨rfl, rfl⟩, hmu⟩

/-- Two upstream partitions, versions 0 and 1 interleaved. -/
def interleaved : List (Action Unit) :=
  [.kReceiveJoin (output 0 0), .kReceiveJoin (output 1 0), .execFetch 0, .process 0,
    .execFetch 0, .kReceiveJoin (output 0 1), .process 0, .execFetch 0, .process 0]

theorem completed_versions_complete_interleaved :
    ∃ s, run (step (twoCollections 2 1 2)) (setup (twoCollections 2 1 2)) interleaved = .ok s ∧
      s.updateVersions.val 0 = 1 ∧ ∃ m ∈ s.applied, m.Covers 0 0 1 :=
  ⟨_, rfl, by decide, completed_versions_complete (twoCollections 2 1 2) _
    (reach_of_run_ok interleaved (by decide) rfl) 0 0 1 (by decide) (by decide) (by decide)
    (by decide)⟩

/-- **A version is counted before it is complete.**  With staleness 1 the output of version 1
may overtake that of version 0: the counter then says that version 0 is complete, of which
nothing has arrived. -/
theorem counted_before_complete :
    ∃ s, run (step (twoCollections 1 1 2)) (setup (twoCollections 1 1 2))
        [.kReceiveJoin (output 1 0), .execFetch 0, .process 0] = .ok s ∧
      s.updateVersions.val 0 = 1 ∧ ¬ ∃ m ∈ s.applied, m.Covers 0 0 0 :=
  ⟨_, rfl, by decide, by decide⟩

end PlanController

end Tangram
