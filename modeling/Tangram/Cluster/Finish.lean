import Tangram.Cluster.Contents
import Tangram.Cluster.Isolation

/-!
# The end of a plan

When the manager has counted the last version, every update partition has had
applied every output of every map partition, once, and nothing else
(`allApplied_of_finished` for one iteration, `Flow.applied_finished` for any number).
-/

namespace Tangram

open StepRun

variable {K M O B : Type}

namespace ControlPlane

open PlanController DelayedCombiner

variable {job : MapJoin K M O B} {s s' : ControlPlane K M B}

/-- The outputs of version 0 are applied to `p`, each once, and no others. -/
def AllApplied (job : MapJoin K M O B) (s : ControlPlane K M B) (p : Int) : Prop :=
  ∀ w u, tokensIn (s.controller (job.owner p)).pc.applied p w u =
    if w = 0 ∧ u ∈ job.mapParts then 1 else 0

/-- Nothing but the output of a map of the plan is applied. -/
theorem Flow.applied_mapped (h : Flow job s) {p w u : Int} (hp : p ∈ job.updateParts)
    (hpos : 0 < tokensIn (s.controller (job.owner p)).pc.applied p w u) :
    u ∈ job.mapParts ∧ (u, w) ∈ (s.controller (job.home u)).pc.mapped := by
  obtain ⟨m, hm, hcov⟩ := tokensIn_pos.mp hpos
  exact h.mapped_of_received hp
    (mem_received (h.sound (job.owner p)) (.inr (.inr (.inr hm)))) hcov

/-- The maps of a plan of one iteration are of version 0. -/
theorem Flow.mapped_zero (h : Flow job s) (hiter : job.numIter = 1) {n u w : Int}
    (hw : (u, w) ∈ (s.controller n).pc.mapped) : w = 0 := by
  have hmaps := h.maps n
  have hpos := List.count_pos_iff.mpr hw
  rw [hmaps.mapped u w] at hpos
  have hlt : 0 ≤ w ∧ w < (s.controller n).pc.mapVersions.val u + (s.controller n).pc.unfinished u := by
    by_contra hno
    rw [if_neg hno] at hpos
    exact absurd hpos (Nat.lt_irrefl 0)
  have hnum : (job.spec n).expectedNumIter = 1 := hiter
  have hle := hmaps.iters (by omega) u
  omega

/-- The outputs of version 0 are the only ones to be applied. -/
theorem Flow.allApplied (h : Flow job s) (hiter : job.numIter = 1) {p : Int}
    (hp : p ∈ job.updateParts)
    (hall : ∀ u ∈ job.mapParts, tokensIn (s.controller (job.owner p)).pc.applied p 0 u = 1) :
    AllApplied job s p := by
  intro w u
  split
  · next hwu =>
    obtain ⟨rfl, hu⟩ := hwu
    exact hall u hu
  · next hwu =>
    by_contra hne
    obtain ⟨hu, hmap⟩ := h.applied_mapped hp (Nat.pos_of_ne_zero hne)
    exact hwu ⟨h.mapped_zero hiter hmap, hu⟩

/-- **The plan has ended.** -/
theorem allApplied_of_finished (h : Flow job s) (hsync : Synced job s) (hiter : job.numIter = 1)
    (hend : 1 ≤ s.sched.versions) {p : Int} (hp : p ∈ job.updateParts) : AllApplied job s p := by
  refine h.allApplied hiter hp fun u hu => ?_
  obtain ⟨h0, hlt⟩ := MapJoin.mem_mapParts.mp hu
  have hlen : 0 < (job.partToNode job.mapCollectionId).length := by omega
  have honce := h.once hlen (job.owner p)
  have hver : 0 < (s.controller (job.owner p)).pc.updateVersions.val p := by
    have := hsync.versions_le hp
    omega
  -- the version that was counted is version 0
  obtain ⟨v, hv, -⟩ := exists_counted_ge honce (counted_stable.reachIf (h.runs _)) hver le_rfl
  have hone := h.applied_of_completed hp hu hv
  obtain ⟨-, hmap⟩ := h.applied_mapped hp (u := u) (w := v) (by omega)
  rw [h.mapped_zero hiter hmap] at hone
  exact hone

section Finished

variable (h : Flow job s) (hiter : 0 ≤ job.numIter) {p : Int} (hp : p ∈ job.updateParts) {w u : Int}
include h hiter hp

theorem Flow.applied_lt (hpos : 0 < tokensIn (s.controller (job.owner p)).pc.applied p w u) :
    0 ≤ w ∧ w < job.numIter ∧ u ∈ job.mapParts := by
  obtain ⟨hu, hmap⟩ := h.applied_mapped hp hpos
  have hmaps := h.maps (job.home u)
  have hcount := (List.count_pos_iff.mpr hmap).ne'
  rw [hmaps.mapped u w] at hcount
  have hw := (ite_ne_right_iff.mp hcount).1
  exact ⟨hw.1, hw.2.trans_le (hmaps.iters hiter u), hu⟩

variable (hsync : Synced job s) (hend : job.numIter ≤ s.sched.versions)
include hsync hend

/-- A version may be counted too early, but at the end there is no other left to count. -/
theorem Flow.applied_finished :
    tokensIn (s.controller (job.owner p)).pc.applied p w u =
      if 0 ≤ w ∧ w < job.numIter ∧ u ∈ job.mapParts then 1 else 0 := by
  split
  · next hw =>
    have hrange := MapJoin.mem_mapParts.mp hw.2.2
    have honce := h.once (by omega) (job.owner p)
    refine h.applied_of_completed hp hw.2.2 (counted_of_lt honce (counted_stable.reachIf (h.runs _))
      (hend.trans (hsync.versions_le hp)) (fun v hv => ?_) hw.1 hw.2.1)
    have hone := h.applied_of_completed hp hw.2.2 hv
    exact (h.applied_lt hiter hp (hone ▸ Nat.one_pos)).2.1
  · next hw => exact Nat.eq_zero_of_not_pos fun hpos => hw (h.applied_lt hiter hp hpos)

/-- Nothing is left at a combiner, under way or in a queue, and nothing was dropped. -/
theorem Flow.inSystem_finished (hu : u ∈ job.mapParts) :
    inSystem job s p w u = tokensIn (s.controller (job.owner p)).pc.applied p w u := by
  have hle : _ ≤ inSystem job s p w u :=
    (tokensIn_applied_le (h.sound (job.owner p)) p w u).trans (by unfold inSystem; omega)
  have hit : _ ≤ job.numIter := (h.maps (job.home u)).iters hiter u
  rw [h.applied_finished hiter hp hsync hend, h.tokens p hp u hu, (h.maps _).mapped] at *
  grind

end Finished

end ControlPlane

end Tangram
