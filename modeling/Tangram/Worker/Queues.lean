import Tangram.Worker.Exclusion

/-!
# No stranded work

Where a join message can be: pending for a later map, waiting for its partition,
running, or applied.  It is in exactly one of these places (`kept`), a
pending message belongs to a map that is still to finish (`PendingOk`), and
whatever waits, waits for something that runs (`waits_step`).
-/

namespace Tangram

open StepRun Relation List Function FetchTask
open scoped List

namespace PlanController

variable {β : Type} {c : Spec} {s s' s₁ : PlanController β} {r : JoinMeta β → Bool} {a : Action β}
  {p v : Int}

/-! ## The places of a message -/

/-- The map output that waits for `p`. -/
def waitingJoins (s : PlanController β) (p : Int) : List (JoinMeta β) :=
  (s.waitingUpdates p).filterMap VersionedJoinMeta.join?

/-- The map output that is being applied. -/
def runningJoins (s : PlanController β) : List (JoinMeta β) :=
  s.fetchExecutor.filterMap FetchTask.join?

/-- The test `r` looks only at the messages of version `v` of `p`. -/
def TestsAt (p v : Int) (r : JoinMeta β → Bool) : Prop := ∀ m, r m = true → m.At p v

section Places

variable {s : PlanController β} {p v : Int} {r : JoinMeta β → Bool}

theorem countP_pushPending (hr : TestsAt p v r) (m : JoinMeta β) :
    ((s.pushPending m).pendingUpdates p v).countP r =
      (s.pendingUpdates p v).countP r + if r m then 1 else 0 := by
  by_cases hm : r m = true
  · obtain ⟨rfl, rfl⟩ := hr m hm
    simp [pushPending, hm]
  · simp only [hm, Bool.false_eq_true, if_false, Nat.add_zero]
    by_cases hp : p = m.partId
    · subst hp
      by_cases hv : v = m.version
      · subst hv
        simp [pushPending, hm]
      · simp [pushPending, update_of_ne hv]
    · simp [pushPending, update_of_ne hp]

theorem countP_pushWaiting (hr : TestsAt p v r) (e : VersionedJoinMeta β) :
    ((s.pushWaiting e.partId e).waitingJoins p).countP r =
      (s.waitingJoins p).countP r + (e.join?.toList).countP r := by
  by_cases hp : p = e.partId
  · subst hp
    cases e with
    | join m | fetch f => simp [pushWaiting, setWaiting, waitingJoins, VersionedJoinMeta.join?]
  · have h0 : (e.join?.toList).countP r = 0 := by
      cases e with
      | join m =>
        have hm : ¬ r m = true := fun hm => hp (hr m hm).1.symm
        simp [VersionedJoinMeta.join?, hm]
      | fetch f => simp [VersionedJoinMeta.join?]
    simp [pushWaiting, setWaiting, waitingJoins, update_of_ne hp, h0]

theorem countP_popWaiting {q : Int} {e : VersionedJoinMeta β} {rest : List (VersionedJoinMeta β)}
    (hq : s.waitingUpdates q = e :: rest) (he : e.partId = q) (hr : TestsAt p v r) :
    (s.waitingJoins p).countP r =
      ((s.setWaiting q rest).waitingJoins p).countP r + (e.join?.toList).countP r := by
  by_cases hp : p = q
  · subst hp
    unfold waitingJoins
    rw [hq, countP_filterMap_cons]
    simp [setWaiting]
  · have h0 : (e.join?.toList).countP r = 0 := by
      cases e with
      | join m =>
        have hm : ¬ r m = true := fun hm => hp ((hr m hm).1.symm.trans he)
        simp [VersionedJoinMeta.join?, hm]
      | fetch f => simp [VersionedJoinMeta.join?]
    simp [waitingJoins, setWaiting, update_of_ne hp, h0]

/-- What is released from `pending` waits. -/
theorem countP_releasePending (hl : Placed s) (hr : TestsAt p v r) (q w : Int) :
    ((releasePending s q w).pendingUpdates p v).countP r +
        ((releasePending s q w).waitingJoins p).countP r =
      (s.pendingUpdates p v).countP r + (s.waitingJoins p).countP r := by
  by_cases hp : p = q
  · subst hp
    have hmap : ((s.pendingUpdates p w).map VersionedJoinMeta.join).filterMap
        VersionedJoinMeta.join? = s.pendingUpdates p w := by
      simp [filterMap_map, Function.comp_def, VersionedJoinMeta.join?]
    by_cases hv : v = w
    · subst hv
      simp [releasePending, waitingJoins, hmap]
      omega
    · -- what is released is of another version
      have h0 : (s.pendingUpdates p w).countP r = 0 := by
        rw [countP_eq_zero]
        intro m hm hrm
        exact hv ((hr m hrm).2.symm.trans (hl.pending p w m hm).2)
      simp [releasePending, waitingJoins, hmap, update_of_ne hv, h0]
  · simp [releasePending, waitingJoins, update_of_ne hp]

theorem runningJoins_runFetchRequest (f : FetchReq) :
    (runFetchRequest c s f).runningJoins = s.runningJoins := by
  by_cases hg : IsGrant f
  · simp [runningJoins, runFetchRequest, addRunningFetch, hg]
  · simp [runningJoins, runFetchRequest, addRunningFetch, hg, join?]

end Places

/-! ## Every message is in one place -/

/-- Counted by a test, what was received is ignored, pending, waiting, running or applied. -/
def Kept (s : PlanController β) (p v : Int) (r : JoinMeta β → Bool) : Prop :=
  s.received.countP r = s.ignored.countP r + ((s.pendingUpdates p v).countP r +
    (s.waitingJoins p).countP r + s.runningJoins.countP r + s.applied.countP r)

/-- The places of a message. -/
def held (s : PlanController β) (p v : Int) (r : JoinMeta β → Bool) : Nat :=
  s.ignored.countP r + ((s.pendingUpdates p v).countP r +
    (s.waitingJoins p).countP r + s.runningJoins.countP r + s.applied.countP r)

/-- A change puts what it receives in one place and moves what is there already. -/
theorem held_head (hl : Placed s) (hr : TestsAt p v r) (hh : Head c s a s₁) :
    s₁.received.countP r + held s p v r = s.received.countP r + held s₁ p v r := by
  cases hh with
  | noop => rfl
  | bufferJoin m hk => rfl
  | ignoreJoin m hk hj =>
    show (s.received ++ [m]).countP r + (s.ignored.countP r + ((s.pendingUpdates p v).countP r +
        (s.waitingJoins p).countP r + s.runningJoins.countP r + s.applied.countP r)) =
      s.received.countP r + ((s.ignored ++ [m]).countP r + ((s.pendingUpdates p v).countP r +
        (s.waitingJoins p).countP r + s.runningJoins.countP r + s.applied.countP r))
    rw [countP_append, countP_append]
    omega
  | pendJoin m hk hj hc hv =>
    have hpush := countP_pushPending (s := s) hr m
    show (s.received ++ [m]).countP r + (s.ignored.countP r + ((s.pendingUpdates p v).countP r +
        (s.waitingJoins p).countP r + s.runningJoins.countP r + s.applied.countP r)) =
      s.received.countP r + (s.ignored.countP r +
        (((s.pushPending m).pendingUpdates p v).countP r + (s.waitingJoins p).countP r +
          s.runningJoins.countP r + s.applied.countP r))
    rw [hpush, countP_append, countP_singleton]
    omega
  | waitJoin m hk hj hv =>
    have hpush : ((s.pushWaiting m.partId (.join m)).waitingJoins p).countP r =
        (s.waitingJoins p).countP r + [m].countP r := countP_pushWaiting hr (.join m)
    show (s.received ++ [m]).countP r + (s.ignored.countP r + ((s.pendingUpdates p v).countP r +
        (s.waitingJoins p).countP r + s.runningJoins.countP r + s.applied.countP r)) =
      s.received.countP r + (s.ignored.countP r + ((s.pendingUpdates p v).countP r +
        ((s.pushWaiting m.partId (.join m)).waitingJoins p).countP r +
          s.runningJoins.countP r + s.applied.countP r))
    rw [hpush, countP_append]
    omega
  | runFetch f hp hf hr' =>
    show s.received.countP r + (_ + (_ + _ + s.runningJoins.countP r + _)) =
      s.received.countP r + (_ + (_ + _ + (runFetchRequest c s f).runningJoins.countP r + _))
    rw [runningJoins_runFetchRequest]
    rfl
  | bufferFetch f hk => rfl
  | waitFetch f hk hf hc hr' =>
    have hpush : ((s.pushWaiting f.partId (.fetch f)).waitingJoins p).countP r =
        (s.waitingJoins p).countP r := countP_pushWaiting hr (.fetch f)
    show s.received.countP r + (_ + (_ + (s.waitingJoins p).countP r + _ + _)) =
      s.received.countP r + (_ +
        (_ + (waitingJoins (s.pushWaiting f.partId (.fetch f)) p).countP r + _ + _))
    rw [hpush]
    rfl
  | releaseFetch i q hi => rfl
  | updateVersion w hlt hv => rfl
  | abortBegin i t hi hs => rfl
  | beginMap i t hi => rfl
  | abortEnd i t hi hs => rfl
  | endMap i t hi hs => rfl
  | execJoin i m hi =>
    have hrun := countP_filterMap_of_getElem? hi join? r
    show s.received.countP r + (s.ignored.countP r + ((s.pendingUpdates p v).countP r +
        (s.waitingJoins p).countP r + (s.fetchExecutor.filterMap join?).countP r +
          s.applied.countP r)) =
      s.received.countP r + (s.ignored.countP r + ((s.pendingUpdates p v).countP r +
        (s.waitingJoins p).countP r +
          ((s.fetchExecutor.eraseIdx i).filterMap join?).countP r +
            (s.applied ++ [m]).countP r))
    rw [countP_append]
    simp only [join?, Option.toList_some] at hrun
    omega
  | execCheckpoint i q iter hi | execFetch i f w hi =>
    have hrun := countP_filterMap_of_getElem? hi join? r
    exact congrArg (fun n => s.received.countP r + (_ + (_ + _ + n + _))) hrun
  | finishMapGone i q b hi hk => rfl
  | finishMap i q b hi hk hc => rfl
  | finishMapJoin i q b hi hk hc =>
    have hl₁ : Placed (countMap c (mapDone (takeMsg s i) q) q) := { hl with }
    have hrel := countP_releasePending hl₁ hr q (s.mapVersions.val q)
    show s.received.countP r + (s.ignored.countP r + ((s.pendingUpdates p v).countP r +
        (s.waitingJoins p).countP r + s.runningJoins.countP r + s.applied.countP r)) =
      s.received.countP r + (s.ignored.countP r + (_ + _ + s.runningJoins.countP r +
        s.applied.countP r))
    rw [hrel]
    rfl
  | trackJoin i q w ups hi hn => rfl
  | complete i q w ups hi hn => rfl
  | completeCheckpoint i q w ups hi hn =>
    show s.received.countP r + (_ + (_ + _ + s.runningJoins.countP r + _)) =
      s.received.countP r + (_ + (_ + _ + ((s.fetchExecutor ++ [_]).filterMap
        join?).countP r + _))
    rw [filterMap_append]
    show _ = s.received.countP r + (_ + (_ + _ + (s.runningJoins ++ []).countP r + _))
    rw [append_nil]
    rfl
  | finishFetch i q u hi => rfl
  | finishCheckpoint i q hi hr' => rfl

theorem held_tail (hl : Placed s) (hr : TestsAt p v r) (ht : Tail c s s') :
    s'.received = s.received ∧ held s' p v r = held s p v r := by
  cases ht with
  | launch q hr' hp => exact ⟨rfl, rfl⟩
  | popDuplicate q m rest hq hb hj =>
    have hpop := countP_popWaiting hq (hl.waiting q (.join m) (hq ▸ mem_cons_self)) hr
    refine ⟨rfl, ?_⟩
    show (s.ignored ++ [m]).countP r + ((s.pendingUpdates p v).countP r +
      ((s.setWaiting q rest).waitingJoins p).countP r + s.runningJoins.countP r +
      s.applied.countP r) = held s p v r
    rw [countP_append]
    simp only [VersionedJoinMeta.join?, Option.toList_some] at hpop
    unfold held
    omega
  | popFetch q f rest hq hb =>
    have hpop := countP_popWaiting hq (hl.waiting q (.fetch f) (hq ▸ mem_cons_self)) hr
    have hrun := runningJoins_runFetchRequest (c := c) (s := s.setWaiting q rest) f
    refine ⟨rfl, ?_⟩
    show s.ignored.countP r + ((s.pendingUpdates p v).countP r +
      ((s.setWaiting q rest).waitingJoins p).countP r +
      (runFetchRequest c (s.setWaiting q rest) f).runningJoins.countP r + s.applied.countP r) =
        held s p v r
    rw [hrun]
    show s.ignored.countP r + ((s.pendingUpdates p v).countP r +
      ((s.setWaiting q rest).waitingJoins p).countP r + s.runningJoins.countP r +
      s.applied.countP r) = held s p v r
    simp only [VersionedJoinMeta.join?, Option.toList_none, countP_nil] at hpop
    unfold held
    omega
  | popJoin q m rest hq hb hj hr' =>
    have hpop := countP_popWaiting hq (hl.waiting q (.join m) (hq ▸ mem_cons_self)) hr
    refine ⟨rfl, ?_⟩
    show s.ignored.countP r + ((s.pendingUpdates p v).countP r +
      ((s.setWaiting q rest).waitingJoins p).countP r +
      ((s.fetchExecutor ++ [join m]).filterMap join?).countP r +
      s.applied.countP r) = held s p v r
    rw [filterMap_append, countP_append]
    simp only [VersionedJoinMeta.join?, Option.toList_some] at hpop
    show s.ignored.countP r + ((s.pendingUpdates p v).countP r +
      ((s.setWaiting q rest).waitingJoins p).countP r +
      (s.runningJoins.countP r + [m].countP r) + s.applied.countP r) = held s p v r
    unfold held
    omega

theorem kept_head (hl : Placed s) (hr : TestsAt p v r) (h : Kept s p v r) (hh : Head c s a s₁) :
    Kept s₁ p v r := by
  have h₁ : s.received.countP r = held s p v r := h
  have h₂ := held_head hl hr hh
  show s₁.received.countP r = held s₁ p v r
  omega

theorem kept_tail (hl : Placed s) (hr : TestsAt p v r) (h : Kept s p v r) (ht : Tail c s s') :
    Kept s' p v r := by
  obtain ⟨hrec, heq⟩ := held_tail hl hr ht
  show s'.received.countP r = held s' p v r
  rw [hrec, heq]
  exact h

theorem kept_stable : Stable c (fun s : PlanController β =>
    Layout c s ∧ ∀ p v r, TestsAt p v r → Kept s p v r) :=
  layout_stable.and (fun _ _ _ _ => rfl)
    (fun _ _ _ hl h hh p v r hr => kept_head hl.placed hr (h p v r hr) hh)
    fun _ _ hl h ht p v r hr => kept_tail hl.placed hr (h p v r hr) ht

/-! ## What is pending belongs to a later map -/

/-- Messages are kept for a later map only if maps and updates share a collection. -/
def PendingOk (c : Spec) (s : PlanController β) : Prop :=
  ∀ p v, s.pendingUpdates p v ≠ [] →
    c.mapCollectionId = c.updateCollectionId ∧ s.mapVersions.val p ≤ v

theorem pendingOk_head (h : PendingOk c s) (hh : Head c s a s₁) : PendingOk c s₁ := by
  cases hh with
  | pendJoin m hk hj hc hv =>
    intro p v hne
    by_cases hp : p = m.partId
    · subst hp
      by_cases hvm : v = m.version
      · subst hvm
        exact ⟨hc, hv⟩
      · refine h _ v ?_
        simpa [pushPending, update_of_ne hvm] using hne
    · refine h p v ?_
      simpa [pushPending, update_of_ne hp] using hne
  | finishMap i q b hi hk hc =>
    intro p v hne
    exact absurd (h p v hne).1 hc
  | finishMapJoin i q b hi hk hc =>
    intro p v hne
    by_cases hp : p = q
    · subst hp
      by_cases hv : v = s.mapVersions.val p
      · subst hv
        simp [releasePending] at hne
      · -- the version that was released is gone, so the bound moves by one
        have hle := (h p v (by
          simpa [releasePending, countMap, reportFinishPart, mapDone, takeMsg,
            update_of_ne hv] using hne)).2
        refine ⟨hc, ?_⟩
        show (s.mapVersions.set p (s.mapVersions.val p + 1)).val p ≤ v
        rw [Table.val_set_self]
        omega
    · have hle := (h p v (by
          simpa [releasePending, countMap, reportFinishPart, mapDone, takeMsg,
            update_of_ne hp] using hne)).2
      refine ⟨hc, ?_⟩
      show (s.mapVersions.set q (s.mapVersions.val q + 1)).val p ≤ v
      rw [Table.val_set_ne _ _ hp]
      exact hle
  | _ => exact h

theorem pendingOk_tail (h : PendingOk c s) (ht : Tail c s s') : PendingOk c s' := by
  cases ht <;> exact h

theorem pendingOk_stable : Stable c (PendingOk c : PlanController β → Prop) where
  start := fun _ _ hne => absurd rfl hne
  head _ _ _ h hh := pendingOk_head h hh
  tail _ _ h ht := pendingOk_tail h ht

/-! ## What waits, waits for something -/

/-- If anything waits for `p`, then `p` is blocked. -/
def Waits (c : Spec) (s : PlanController β) (p : Int) : Prop :=
  s.waitingUpdates p ≠ [] → Blocked c s p

theorem waits_runSomeMaps (ps : List Int) {s s' : PlanController β} (h : ∀ p, Waits c s p)
    (hs : runSomeMaps c ps s = .ok s') : ∀ p, Waits c s' p := by
  induction ps generalizing s with
  | nil =>
    cases hs
    exact h
  | cons q ps ih =>
    unfold runSomeMaps at hs
    split at hs
    · obtain ⟨_, -, hs⟩ := bind_eq_ok.mp hs
      obtain ⟨s₁, h₁, hs⟩ := bind_eq_ok.mp hs
      obtain ⟨-, rfl⟩ := runMap_eq_ok h₁
      refine ih (fun p hne => ?_) hs
      rcases h p hne with hu | hf | ⟨hc, hm⟩
      · exact .inl hu
      · exact .inr (.inl hf)
      · exact .inr (.inr ⟨hc, Finset.mem_insert_of_mem hm⟩)
    · exact ih h hs

theorem waits_tryRunSomeMaps (h : ∀ p, Waits c s p) (hs : tryRunSomeMaps c s = .ok s') :
    ∀ p, Waits c s' p := by
  unfold tryRunSomeMaps at hs
  split at hs
  · cases hs
    exact h
  · exact waits_runSomeMaps _ h hs

/-- A fetch adds to what blocks a partition. -/
theorem blocked_runFetchRequest {p : Int} (f : FetchReq) (h : Blocked c s p) :
    Blocked c (runFetchRequest c s f) p := by
  rcases h with hu | ⟨hc, hf⟩ | hm
  · exact .inl hu
  · refine .inr (.inl ⟨hc, ?_⟩)
    show 0 < update s.runningFetches f.partId (s.runningFetches f.partId + 1) p
    by_cases hp : p = f.partId
    · subst hp
      rw [update_self]
      omega
    · rw [update_of_ne hp]
      exact hf
  · exact .inr (.inr hm)

/-- `TryRunWaitingJoins` empties the queue of `p` or leaves something that blocks `p`; the
other partitions are as they were. -/
theorem waits_runWaitingJoins (p : Int) (q : List (VersionedJoinMeta β))
    (hq : s.waitingUpdates p = q) (hpart : ∀ e ∈ q, e.partId = p)
    (hfetch : ∀ f, .fetch f ∈ q → c.fetchCollectionId = c.updateCollectionId)
    (hpos : 0 ≤ s.runningFetches p) (h : ∀ p', p' ≠ p → Waits c s p')
    (hs : runWaitingJoins c p q s = .ok s') : ∀ p', Waits c s' p' := by
  induction q generalizing s with
  | nil =>
    cases hs
    intro p' hne
    by_cases hp : p' = p
    · subst hp
      exact absurd hq hne
    · exact h p' hp hne
  | cons e rest ih =>
    have hothers : ∀ p', p' ≠ p → Waits c (s.setWaiting p rest) p' := by
      intro p' hp hne
      refine h p' hp ?_
      simpa [setWaiting, update_of_ne hp] using hne
    have hrest : ∀ x ∈ rest, x.partId = p := fun x hx => hpart x (mem_cons_of_mem _ hx)
    have hrestf : ∀ f, .fetch f ∈ rest → c.fetchCollectionId = c.updateCollectionId :=
      fun f hf => hfetch f (mem_cons_of_mem _ hf)
    unfold runWaitingJoins at hs
    split at hs
    · next hb =>
      cases hs
      intro p' hne
      by_cases hp : p' = p
      · subst hp
        exact hb
      · exact h p' hp hne
    · cases e with
      | fetch f =>
        cases hs
        have hf : f.partId = p := hpart (.fetch f) mem_cons_self
        intro p' hne
        by_cases hp : p' = p
        · subst hp
          refine .inr (.inl ⟨hfetch f mem_cons_self, ?_⟩)
          show 0 < update s.runningFetches f.partId (s.runningFetches f.partId + 1) p'
          rw [hf, update_self]
          omega
        · exact blocked_runFetchRequest f (hothers p' hp hne)
      | join m =>
        simp only [runJoin] at hs
        obtain ⟨joined, -, hs⟩ := bind_eq_ok.mp hs
        cases joined with
        | true =>
          exact ih (s := (s.setWaiting p rest).ignore m) (by simp [ignore, setWaiting]) hrest
            hrestf hpos hothers hs
        | false =>
          obtain ⟨-, rfl⟩ := startJoin_eq_ok hs
          have hm : m.partId = p := hpart (.join m) mem_cons_self
          intro p' hne
          by_cases hp : p' = p
          · subst hp
            refine .inl ?_
            rw [hm]
            simp
          · rcases hothers p' hp hne with hu | hf | hmap
            · refine .inl ?_
              show (update s.runningUpdates m.partId _ p').isSome
              rw [hm, update_of_ne hp]
              exact hu
            · exact .inr (.inl hf)
            · exact .inr (.inr hmap)

theorem waits_tryRunWaitingJoins {p : Int} (hl : Layout c s) (hpos : 0 ≤ s.runningFetches p)
    (h : ∀ p', p' ≠ p → Waits c s p') (hs : tryRunWaitingJoins c s p = .ok s') :
    ∀ p', Waits c s' p' :=
  waits_runWaitingJoins p _ rfl (fun e he => (hl.waiting p e he).1)
    (fun f hf => (hl.waitingFetch p f hf).1) hpos h hs

theorem waits_receiveJoin {m : JoinMeta β} (hl : Layout c s) (hx : ∀ p, Excl c s p)
    (h : ∀ p, Waits c s p) (hs : receiveJoin c s m = .ok s') : ∀ p, Waits c s' p := by
  unfold receiveJoin at hs
  split at hs
  · cases hs
    exact h
  · next hk =>
    obtain ⟨joined, -, hs⟩ := bind_eq_ok.mp hs
    cases joined with
    | true =>
      cases hs
      exact h
    | false =>
      simp only [Bool.false_eq_true, if_false] at hs
      split at hs
      · cases hs
        exact h
      · have hr : Layout c { s with received := s.received ++ [m] } := { hl with }
        have hl₁ := hr.pushWaiting (e := .join m) (hl.updateKeys ▸ not_not.mp hk)
          fun f hf => by simp at hf
        have hpos := (hx m.partId).fetches
        refine waits_tryRunWaitingJoins hl₁ (p := m.partId) (by
          show 0 ≤ s.runningFetches m.partId
          omega) (fun p' hp hne => h p' ?_) hs
        simpa [pushWaiting, setWaiting, VersionedJoinMeta.partId, update_of_ne hp] using hne

theorem waits_receiveFetchRequest {f : FetchReq} (h : ∀ p, Waits c s p)
    (hs : receiveFetchRequest c s f = .ok s') : ∀ p, Waits c s' p := by
  have hh := receiveFetchRequest_head hs
  clear hs
  intro p hne
  cases hh with
  | noop => exact h p hne
  | runFetch f hp hf hr => exact blocked_runFetchRequest f (h p hne)
  | bufferFetch f hk => exact h p hne
  | waitFetch f hk hf hc hr =>
    by_cases hp : p = f.partId
    · subst hp
      exact .inl hr
    · refine h p ?_
      simpa [pushWaiting, setWaiting, update_of_ne hp] using hne

theorem waits_finishMap {i : Nat} {q : Int} {b : Bool} (hl : Layout c s) (hx : ∀ p, Excl c s p)
    (h : ∀ p, Waits c s p) (hi : s.workQueue[i]? = some (.kFinishMap q b))
    (hs : finishMap c (takeMsg s i) q = .ok s') : ∀ p, Waits c s' p := by
  have hq : q ∈ s.mapVersions.keys := hl.mapKeys ▸ hl.inUse _ (mem_inUse_of_msg hi)
  have hothers : ∀ p, p ≠ q ∨ c.mapCollectionId ≠ c.updateCollectionId → Waits c s p →
      Waits c (mapDone s q) p := by
    intro p hp hw hne
    rcases hw hne with hu | hf | ⟨hc, hm⟩
    · exact .inl hu
    · exact .inr (.inl hf)
    · rcases hp with hp | hp
      · exact .inr (.inr ⟨hc, Finset.mem_erase.mpr ⟨hp, hm⟩⟩)
      · exact absurd hc hp
  unfold finishMap at hs
  simp only at hs
  split at hs
  · next hk => exact absurd hq hk
  · split at hs
    · next hk hc =>
      obtain ⟨s₁, h₁, hs⟩ := bind_eq_ok.mp hs
      have hl₁ := (((hl.takeMsg hi).mapDone q).countMap hq).releasePending q (s.mapVersions.val q)
      have hpos := (hx q).fetches
      refine waits_tryRunSomeMaps (waits_tryRunWaitingJoins hl₁ (p := q) (by
        show 0 ≤ s.runningFetches q
        omega) (fun p hp hne => ?_) h₁) hs
      refine hothers p (.inl hp) (h p) ?_
      simpa [releasePending, countMap, reportFinishPart, mapDone, takeMsg,
        update_of_ne hp] using hne
    · next hk hc =>
      exact waits_tryRunSomeMaps (s := countMap c (mapDone (takeMsg s i) q) q)
        (fun p => hothers p (.inr hc) (h p)) hs

/-- The update of `q` gives the partition back; the queues of the others are not touched. -/
theorem waits_releaseUpdate (q : Int) (h : ∀ p, Waits c s p) (p : Int) (hp : p ≠ q) :
    Waits c (releaseUpdate s q) p := by
  intro hne
  rcases h p hne with hu | hf | hm
  · refine .inl ?_
    show (update s.runningUpdates q none p).isSome
    rw [update_of_ne hp]
    exact hu
  · exact .inr (.inl hf)
  · exact .inr (.inr hm)

theorem waits_finishJoin {i : Nat} {q v : Int} {ups : List Int} (hl : Layout c s)
    (hx : ∀ p, Excl c s p) (h : ∀ p, Waits c s p)
    (hi : s.workQueue[i]? = some (.kFinishJoin q v ups))
    (hs : finishJoin c (takeMsg s i) q v ups = .ok s') : ∀ p, Waits c s' p := by
  have hothers := waits_releaseUpdate q h
  have hpos : 0 ≤ s.runningFetches q := by
    have := (hx q).fetches
    omega
  have hq : q ∈ c.partitions c.updateCollectionId := hl.inUse _ (mem_inUse_of_msg hi)
  have hl₁ : Layout c (trackJoin (takeMsg s i) q v ups) := { hl.takeMsg hi with }
  have hl₂ := hl₁.completeVersion v hq
  unfold finishJoin at hs
  simp only [trackJoin_tracker] at hs
  split at hs
  · obtain ⟨⟨b, s₂⟩, h₂, hs⟩ := bind_eq_ok.mp hs
    rcases tryCheckpoint_eq_ok h₂ with ⟨rfl, rfl⟩ | ⟨rfl, rfl⟩
    · cases hs
      -- the checkpoint blocks the partition in the place of the update
      intro p hne
      by_cases hp : p = q
      · subst hp
        refine .inl ?_
        simp [startCheckpoint]
      · rcases hothers p hp hne with hu | hf | hm
        · refine .inl ?_
          show (update (update s.runningUpdates q none) q _ p).isSome
          rw [update_of_ne hp]
          exact hu
        · exact .inr (.inl hf)
        · exact .inr (.inr hm)
    · have hl₃ : Layout c (reportJoin c (completeVersion (trackJoin (takeMsg s i) q v ups) q v) q) :=
        { hl₂ with }
      exact waits_tryRunWaitingJoins hl₃ hpos hothers hs
  · exact waits_tryRunWaitingJoins hl₁ hpos hothers hs

/-- A fetch of `q` ends: only `q` can lose what blocks it. -/
theorem waits_finishFetch {q : Int} (hl : Layout c (addRunningFetch s q (-1)))
    (hx : Excl c (addRunningFetch s q (-1)) q) (h : ∀ p, Waits c s p)
    (hs : finishFetch c s q = .ok s') : ∀ p, Waits c s' p := by
  have hpos := hx.fetches
  refine waits_tryRunWaitingJoins hl (p := q) (by omega) (fun p hp hne => ?_) hs
  rcases h p hne with hu | ⟨hc, hf⟩ | hm
  · exact .inl hu
  · refine .inr (.inl ⟨hc, ?_⟩)
    show 0 < update s.runningFetches q _ p
    rw [update_of_ne hp]
    exact hf
  · exact .inr (.inr hm)

/-- **One step** leaves nothing waiting that has nothing to wait for. -/
theorem waits_step (hl : Layout c s) (hx : ∀ p, Excl c s p) (h : ∀ p, Waits c s p)
    (hs : step c s a = .ok s') : ∀ p, Waits c s' p := by
  cases a with
  | kStart => exact waits_tryRunSomeMaps h hs
  | kReceiveJoin m => exact waits_receiveJoin hl hx h hs
  | kFetchRequest f => exact waits_receiveFetchRequest h hs
  | releaseFetch i =>
    simp only [step] at hs
    split at hs
    · cases hs
      exact h
    · next q hi =>
      have hh : Head c s (.releaseFetch i) _ := Head.releaseFetch s i q hi
      exact waits_finishFetch (layout_head hl hh) (excl_head hx hh q) (s := takeGrant s i) h hs
  | kUpdateVersion v =>
    simp only [step, updateVersion] at hs
    obtain ⟨_, _, hs⟩ := bind_eq_ok.mp hs
    obtain ⟨_, _, hs⟩ := bind_eq_ok.mp hs
    exact waits_tryRunSomeMaps (s := setMinVersion s v) h hs
  | beginMap i =>
    cases hs
    have hh := beginMap_head (c := c) s i
    generalize beginMap s i = s₁ at hh
    cases hh <;> exact h
  | endMap i =>
    cases hs
    have hh := endMap_head (c := c) s i
    generalize endMap s i = s₁ at hh
    cases hh <;> exact h
  | execFetch i =>
    have hh := execFetch_head (c := c) hs
    clear hs
    cases hh <;> exact h
  | process i =>
    simp only [step] at hs
    split at hs
    · cases hs
      exact h
    · next e hi =>
      cases e with
      | kFinishMap q b => exact waits_finishMap hl hx h hi hs
      | kFinishJoin q v ups => exact waits_finishJoin hl hx h hi hs
      | kFinishFetch q u =>
        have hh : Head c s (.process i) _ := Head.finishFetch s i q u hi
        exact waits_finishFetch (layout_head hl hh) (excl_head hx hh q) (s := takeMsg s i) h hs
      | kFinishCheckpoint q =>
        simp only [process, finishCheckpoint] at hs
        obtain ⟨_, _, hs⟩ := bind_eq_ok.mp hs
        obtain ⟨s₁, h₁, hs⟩ := bind_eq_ok.mp hs
        have hl₁ : Layout c (reportJoin c (releaseUpdate (takeMsg s i) q) q) :=
          { hl.takeMsg hi with }
        have hpos := (hx q).fetches
        exact waits_tryRunSomeMaps (waits_tryRunWaitingJoins hl₁ (p := q) (by
          show 0 ≤ s.runningFetches q
          omega) (waits_releaseUpdate q h) h₁) hs

theorem waits_reachable {ok : PlanController β → Action β → Prop} (hs : ReachIf c ok s) :
    ∀ p, Waits c s p := by
  refine Reach.induct (P := fun s => ∀ p, Waits c s p) hs (fun _ hne => absurd rfl hne)
    fun t a u ht h _ hstep => ?_
  obtain ⟨hl, hx⟩ := excl_stable.reachIf ht
  exact waits_step hl hx h hstep

/-! ## No stranded work -/

/-- The map output for local partitions in a sequence of events. -/
def deliveries (c : Spec) (as : List (Action β)) : List (JoinMeta β) :=
  as.filterMap fun
    | .kReceiveJoin m => if m.partId ∈ c.partitions c.updateCollectionId then some m else none
    | _ => none

theorem deliveries_append (as bs : List (Action β)) :
    deliveries c (as ++ bs) = deliveries c as ++ deliveries c bs :=
  filterMap_append

theorem deliveries_kReceiveJoin {m : JoinMeta β}
    (hp : m.partId ∈ c.partitions c.updateCollectionId) :
    deliveries c [.kReceiveJoin m] = [m] := by
  simp [deliveries, hp]

theorem received_head (hl : Layout c s) (hh : Head c s a s₁) :
    s₁.received = s.received ++ deliveries c [a] := by
  have hkeys := hl.updateKeys
  cases hh with
  | noop a ha _ =>
    cases a with
    | kReceiveJoin m => exact absurd rfl (ha m)
    | _ => exact (append_nil _).symm
  | bufferJoin m hk =>
    rw [hkeys] at hk
    simp [deliveries, hk, buffer]
  | ignoreJoin m hk hj | pendJoin m hk hj hc hv | waitJoin m hk hj hv =>
    rw [hkeys] at hk
    rw [deliveries_kReceiveJoin hk]
    rfl
  | _ => exact (append_nil _).symm

theorem received_step (hl : Layout c s) (h : step c s a = .ok s') :
    s'.received = s.received ++ deliveries c [a] := by
  refine step_induct (P := fun t => t.received = s.received ++ deliveries c [a]) h
    (fun s₁ hh => received_head hl hh) fun t u ht htail => ?_
  cases htail <;> exact ht

/-- What was received is what was delivered. -/
theorem received_run (as : List (Action β)) {s t : PlanController β} (hs : Reachable c s)
    (h : run (step c) s as = .ok t) : t.received = s.received ++ deliveries c as := by
  induction as generalizing s with
  | nil =>
    cases h
    exact (append_nil _).symm
  | cons a as ih =>
    obtain ⟨u, hu, h⟩ := run_cons_ok.mp h
    have hstep := received_step (layout_stable.reachIf hs) hu
    rw [ih (Reach.tail hs trivial hu) h, hstep, append_assoc, ← deliveries_append]
    rfl

theorem blocked_inUse {p : Int} (hx : Excl c s p) (h : Blocked c s p) :
    Use.update p ∈ s.inUse ∨
    (c.fetchCollectionId = c.updateCollectionId ∧ Use.fetch p ∈ s.inUse) ∨
    (c.mapCollectionId = c.updateCollectionId ∧ Use.map p ∈ s.inUse) := by
  rcases h with hu | ⟨hc, hf⟩ | ⟨hc, hm⟩
  · have := hx.updates
    rw [if_pos hu] at this
    exact .inl (count_pos_iff.mp (by omega))
  · have := hx.fetches
    exact .inr (.inl ⟨hc, count_pos_iff.mp (by omega)⟩)
  · have := hx.maps
    rw [if_pos hm] at this
    exact .inr (.inr ⟨hc, count_pos_iff.mp (by omega)⟩)

theorem received_perm_places (hl : Layout c s) (p v : Int) (h : ∀ r, TestsAt p v r → Kept s p v r) :
    s.received.filter (·.At p v) ~ s.ignored.filter (·.At p v) ++
      (s.pendingUpdates p v ++ ((s.waitingJoins p).filter (·.At p v) ++
        (s.runningJoins.filter (·.At p v) ++ s.applied.filter (·.At p v)))) := by
  refine perm_of_countP fun r => ?_
  have hkept := h (fun m => r m && decide (m.At p v)) fun m hm =>
    of_decide_eq_true (Bool.and_eq_true_iff.mp hm).2
  have hpend : (s.pendingUpdates p v).countP r =
      (s.pendingUpdates p v).countP fun m => r m && decide (m.At p v) := by
    refine countP_congr fun m hm => ?_
    have hat : m.At p v := ⟨(hl.pending p v m hm).1, (hl.pending p v m hm).2.1⟩
    simp [hat]
  unfold Kept at hkept
  simp only [countP_append, countP_filter, hpend]
  omega

/-- **No stranded work.**  Between two events, whatever waits for a partition waits for
something that runs on it, whatever is pending belongs to a map that is not finished, and
every message that was delivered is ignored, pending, waiting, running or applied: in one of
these places, and there once. -/
theorem no_stranded_work (c : Spec) (as : List (Action β)) (s : PlanController β)
    (hs : run (step c) (setup c) as = .ok s) (p : Int) :
    (s.waitingUpdates p ≠ [] →
      Use.update p ∈ s.inUse ∨
      (c.fetchCollectionId = c.updateCollectionId ∧ Use.fetch p ∈ s.inUse) ∨
      (c.mapCollectionId = c.updateCollectionId ∧ Use.map p ∈ s.inUse)) ∧
    (∀ v, s.pendingUpdates p v ≠ [] → s.mapVersions.val p ≤ v) ∧
    (∀ v, (deliveries c as).filter (·.At p v) ~
      s.ignored.filter (·.At p v) ++
        (s.pendingUpdates p v ++ ((s.waitingJoins p).filter (·.At p v) ++
          (s.runningJoins.filter (·.At p v) ++ s.applied.filter (·.At p v))))) := by
  have hreach : Reachable c s := reach_of_run as hs
  obtain ⟨hl, hx⟩ := excl_stable.reachIf hreach
  refine ⟨fun hne => ?_, fun v hne => ?_, fun v => ?_⟩
  · exact blocked_inUse (hx p) (waits_reachable hreach p hne)
  · exact (pendingOk_stable.reachIf hreach p v hne).2
  · have hrec : s.received = deliveries c as := received_run as Reach.refl hs
    rw [← hrec]
    exact received_perm_places hl p v ((kept_stable.reachIf hreach).2 p v)

/-- The fetch that arrives during the update waits for the update. -/
theorem no_stranded_work_onePart :
    ∃ s, run (step (onePart 1 0 2)) (setup (onePart 1 0 2)) (onePartEvents.take 6) = .ok s ∧
      s.waitingUpdates 0 ≠ [] ∧ Use.update 0 ∈ s.inUse := by
  refine ⟨_, rfl, by decide, ?_⟩
  have h := (no_stranded_work (onePart 1 0 2) (onePartEvents.take 6) _ rfl 0).1 (by decide)
  rcases h with h | h | h
  · exact h
  · exact absurd h (by decide)
  · exact absurd h (by decide)

end PlanController

end Tangram
