import Tangram.Cluster.Flow

/-!
# The version of the plan and the versions of the controllers

The manager's version is a lower bound of all update versions in the cluster and
an upper bound of every `min_version_` (`synced_reachable`).  Since a map is at
most `staleness` ahead of the `min_version_` of its node, so are the outputs that
an update partition receives (`Flow.received_version_le`).
-/

namespace Tangram

open StepRun

variable {K M O B : Type} {r : ControllerMsg}

namespace ControlManager

variable {plan : Plan} {s s' : ControlManager}

theorem Inv.announced_le (h : Inv plan s) {v : Int} (hv : .kUpdateVersion v ∈ s.broadcasts) :
    v ≤ s.versions := by
  have h0 := h.nonneg
  rw [h.broadcasts] at hv
  rcases List.mem_append.mp hv with hv | hv
  · simp at hv
  · obtain ⟨k, hk, hb⟩ := List.mem_map.mp hv
    rw [List.mem_range] at hk
    unfold broadcastOf at hb
    split at hb
    · cases hb
    · have := Broadcast.kUpdateVersion.inj hb
      omega

/-- The manager only accepts the next version of a partition. -/
theorem handleUpdateJoinVersion_next {p v : Int}
    (h : handleUpdateJoinVersion plan s p v = .ok s') : v = s.update.part.val p + 1 := by
  unfold handleUpdateJoinVersion NodeVersions.advance at h
  obtain ⟨x, hx, -⟩ := bind_eq_ok.mp h
  obtain ⟨u, hu, -⟩ := bind_eq_ok.mp hx
  exact (check_eq_ok.mp hu).symm

/-- A version that is the least before and after one partition moved on grows by one at most. -/
theorem Inv.versions_step (h : Inv plan s) (h' : Inv plan s') {p : Int}
    (hpart : s'.update.part.val =
      Function.update s.update.part.val p (s.update.part.val p + 1)) :
    s'.versions = s.versions ∨ s'.versions = s.versions + 1 := by
  have hval : ∀ q, s.update.part.val q ≤ s'.update.part.val q ∧
      s'.update.part.val q ≤ s.update.part.val q + 1 := by
    intro q
    rw [hpart]
    by_cases hq : q = p
    · subst hq
      simp
    · simp [Function.update_of_ne hq]
  obtain ⟨q, hq, heq⟩ := h.attained
  obtain ⟨q', hq', heq'⟩ := h'.attained
  have h₁ := h'.le q hq
  have h₂ := h.le q' hq'
  have h₃ := hval q
  have h₄ := hval q'
  omega

/-- **One report of a controller.** -/
theorem Inv.control (h : Inv plan s) (hnodes : ∀ n ∈ plan.updatePartToNode, n ∈ plan.nodes)
    (hcp : plan.checkpointInterval ≠ 0 → plan.checkpointPath ≠ "")
    (hr : r.flag = .kMap ∨ r.flag = .kFinish ∨ (r.flag = .kJoin ∧ r.partId ∈ partsOf plan.updatePartToNode))
    (hs : control plan s r = .ok s') :
    Inv plan s' ∧ ((s'.update = s.update ∧ s'.versions = s.versions) ∨
      (r.flag = .kJoin ∧ r.version = s.update.part.val r.partId + 1 ∧
        s'.update.part.val = Function.update s.update.part.val r.partId r.version)) := by
  unfold ControlManager.control at hs
  rcases hr with hf | hf | ⟨hf, hp⟩
  · rw [hf] at hs
    obtain ⟨x, hx, hs⟩ := bind_eq_ok.mp hs
    cases hs
    exact ⟨{ h with }, .inl ⟨rfl, rfl⟩⟩
  · rw [hf] at hs
    simp only at hs
    split at hs
    · obtain ⟨_, _, hs⟩ := bind_eq_ok.mp hs
      cases hs
      exact ⟨{ h with }, .inl ⟨rfl, rfl⟩⟩
    · cases hs
      exact ⟨{ h with }, .inl ⟨rfl, rfl⟩⟩
  · rw [hf] at hs
    have hnext := handleUpdateJoinVersion_next hs
    obtain ⟨t, ht, hinv, hpart⟩ := h.join hnodes hcp hp
    have hs : handleUpdateJoinVersion plan s r.partId r.version = .ok s' := hs
    rw [hnext, ht] at hs
    cases hs
    exact ⟨hinv, .inr ⟨hf, hnext, hnext ▸ hpart⟩⟩

end ControlManager

namespace ControlPlane

open PlanController DelayedCombiner

variable {job : MapJoin K M O B} {s s' : ControlPlane K M B} {e : PlaneEvent}

structure Synced (job : MapJoin K M O B) (s : ControlPlane K M B) : Prop where
  inv : s.sched.Inv job.plan
  part : ∀ p ∈ job.updateParts,
    s.sched.update.part.val p ≤ (s.controller (job.owner p)).pc.updateVersions.val p
  min : ∀ n, (s.controller n).pc.minVersion ≤ s.sched.versions

theorem synced_init : Synced job (init job : ControlPlane K M B) where
  inv := ControlManager.inv_started job.update_ne_nil
  part _ _ := Int.le_refl 0
  min _ := Int.le_refl 0

/-- The manager's version bounds the version of every update partition from below. -/
theorem Synced.versions_le (h : Synced job s) {p : Int} (hp : p ∈ job.updateParts) :
    s.sched.versions ≤ (s.controller (job.owner p)).pc.updateVersions.val p :=
  (h.inv.le p hp).trans (h.part p hp)

/-- A report of a controller is one the manager knows. -/
theorem Flow.report (h : Flow job s) {n : Int} (hr : r ∈ (s.controller n).reports job n) :
    r.flag = .kMap ∨ r.flag = .kFinish ∨ (r.flag = .kJoin ∧
      (r.partId ∈ job.updateParts ∧ job.owner r.partId = n) ∧
      r.version ≤ (s.controller n).pc.updateVersions.val r.partId) := by
  rcases List.mem_append.mp hr with hr | hr
  · rcases (reports_stable.reachIf (h.runs n)).2 r hr with hf | ⟨hf, hp, hle⟩
    · exact .inl hf
    · exact .inr (.inr ⟨hf, MapJoin.mem_spec_update.mp hp, hle⟩)
  · split at hr
    · rw [List.mem_singleton.mp hr]
      exact .inr (.inl rfl)
    · cases hr

theorem Flow.report_known (h : Flow job s) {n : Int} (hr : r ∈ (s.controller n).reports job n) :
    r.flag = .kMap ∨ r.flag = .kFinish ∨
      r.flag = .kJoin ∧ r.partId ∈ partsOf job.plan.updatePartToNode :=
  (h.report hr).imp_right (.imp_right fun ⟨hf, ⟨hp, _⟩, _⟩ => ⟨hf, hp⟩)

/-- What a report does to the manager. -/
theorem Synced.control (h : Synced job s) (hF : Flow job s) {n : Int} {sched : ControlManager}
    (hr : r ∈ (s.controller n).reports job n) (hs : s.sched.control job.plan r = .ok sched) :
    sched.Inv job.plan ∧ (sched.versions = s.sched.versions ∨
        sched.versions = s.sched.versions + 1) ∧
      ∀ p ∈ job.updateParts,
        sched.update.part.val p ≤ (s.controller (job.owner p)).pc.updateVersions.val p := by
  obtain ⟨hinv, ⟨hup, hver⟩ | ⟨hf, hnext, hpart⟩⟩ :=
    h.inv.control (job.node_mem _) job.path_ne (hF.report_known hr) hs
  · exact ⟨hinv, .inl hver, fun p hp => hup ▸ h.part p hp⟩
  · refine ⟨hinv, h.inv.versions_step hinv (hnext ▸ hpart), fun p hp => ?_⟩
    rw [hpart]
    by_cases hq : p = r.partId
    · subst hq
      rw [Function.update_self]
      rcases hF.report hr with hf' | hf' | ⟨-, ⟨-, hown⟩, hle⟩
      · rw [hf] at hf'
        cases hf'
      · rw [hf] at hf'
        cases hf'
      · exact hown ▸ hle
    · rw [Function.update_of_ne hq]
      exact h.part p hp

theorem updateVersions_move [LinearOrder K] (hm : Move job s e s') (k p : Int) :
    (s.controller k).pc.updateVersions.val p ≤ (s'.controller k).pc.updateVersions.val p := by
  rcases move_pc hm k with hpc | ⟨a, hstep, -⟩
  · rw [hpc]
  · exact updateVersions_step hstep p

theorem synced_move [LinearOrder K] (hF : Flow job s) (h : Synced job s) (hm : Move job s e s') :
    Synced job s' := by
  rcases move_sched hm with hsched | ⟨n, r, hr, hs, hpc⟩
  · refine ⟨hsched ▸ h.inv, fun p hp => ?_, fun k => ?_⟩
    · rw [hsched]
      exact (h.part p hp).trans (updateVersions_move hm _ p)
    · rw [hsched]
      rcases move_pc hm k with hpc | ⟨a, hstep, hann, -⟩
      · exact hpc ▸ h.min k
      · rw [minVersion_step hstep]
        cases a with
        | kUpdateVersion v => exact h.inv.announced_le (hann v rfl)
        | _ => exact h.min k
  · obtain ⟨hinv, hver, hpart⟩ := h.control hF hr hs
    refine ⟨hinv, fun p hp => ?_, fun k => ?_⟩
    · rw [hpc]
      exact hpart p hp
    · rw [hpc]
      have := h.min k
      omega

theorem versions_move [LinearOrder K] (hF : Flow job s) (h : Synced job s) (hm : Move job s e s') :
    s.sched.versions ≤ s'.sched.versions := by
  rcases move_sched hm with hsched | ⟨n, r, hr, hs, -⟩
  · rw [hsched]
  · obtain ⟨-, hver, -⟩ := h.control hF hr hs
    omega

theorem synced_reachable [LinearOrder K] (hs : Reachable job s) : Flow job s ∧ Synced job s :=
  hs.induct (P := fun s => Flow job s ∧ Synced job s) ⟨flow_init, synced_init⟩
    fun _ _ _ h hm => ⟨flow_move h.1 hm, synced_move h.1 h.2 hm⟩

/-! ## Outputs are not ahead -/

/-- An output that was received comes from a map that has ended. -/
theorem Flow.mapped_of_received (h : Flow job s) {p w u : Int} (hp : p ∈ job.updateParts)
    {m : JoinMeta (List B)} (hm : m ∈ (s.controller (job.owner p)).pc.received)
    (hc : m.Covers p w u) :
    u ∈ job.mapParts ∧ (u, w) ∈ (s.controller (job.home u)).pc.mapped := by
  obtain ⟨-, hrange⟩ := (h.arrivals (job.owner p)).range m hm
  obtain ⟨h0, hlt⟩ := hrange u hc.2
  have hu : u ∈ job.mapParts := MapJoin.mem_mapParts.mpr ⟨h0, hlt⟩
  refine ⟨hu, List.count_pos_iff.mp ?_⟩
  rw [← h.tokens p hp u hu w]
  have hpos : 0 < tokensIn (s.controller (job.owner p)).pc.received p w u :=
    tokensIn_pos.mpr ⟨m, hm, hc⟩
  unfold inSystem
  omega

/-- What a partition receives is at most `staleness` ahead of the plan. -/
theorem Flow.received_version_le (h : Flow job s) (hsync : Synced job s) {p w u : Int}
    (hp : p ∈ job.updateParts) {m : JoinMeta (List B)}
    (hm : m ∈ (s.controller (job.owner p)).pc.received) (hc : m.Covers p w u) :
    w ≤ s.sched.versions + job.staleness := by
  obtain ⟨-, hmap⟩ := h.mapped_of_received hp hm hc
  have h₁ : w ≤ (s.controller (job.home u)).pc.minVersion + job.staleness :=
    (h.maps (job.home u)).mappedBound _ hmap
  have h₂ := hsync.min (job.home u)
  omega

end ControlPlane

end Tangram
