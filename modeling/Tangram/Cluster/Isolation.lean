import Tangram.Cluster.Minimum

/-!
# Isolation of a plan that updates what it maps

If maps and updates are of one collection, an update of a version is applied only
after the map of that version has read the partition.  With staleness 0 the map of
version `v` sees all updates of the versions below and no others:

    how often the output of u for version w is applied to p, while p is mapped at v
      =  if 0 ≤ w < v then 1 else 0                                   (bsp_isolation)

The second needs all nodes: the manager announces version `v` when every
partition has counted `v` versions, and with staleness 0 these are `0, …, v - 1`,
because nothing of a later version exists in the cluster (`complete_reachable`).
-/

namespace Tangram

open StepRun List
open scoped List

variable {K M O B : Type}

namespace PlanController

variable {β : Type} {c : Spec} {s s' : PlanController β}

theorem tokensIn_at (ms : List (JoinMeta β)) (p w u : Int) :
    tokensIn (ms.filter (·.At p w)) p w u = tokensIn ms p w u :=
  tokensIn_filter fun _ _ h => by simpa using h

/-- An output is not applied more often than it was received. -/
theorem tokensIn_applied_le (hs : Sound c s) (p w u : Int) :
    tokensIn s.applied p w u ≤ tokensIn s.received p w u := by
  have hperm := received_perm_places hs.layout p w (hs.kept p w)
  rw [← tokensIn_at s.received, ← tokensIn_at s.applied, tokensIn_perm hperm]
  simp only [tokensIn_append]
  omega

/-- A counted version stays counted. -/
theorem completed_step {a : Action β} (h : step c s a = .ok s') {x : Int × Int}
    (hx : x ∈ s.completed) : x ∈ s'.completed := by
  refine step_induct (P := fun t => x ∈ t.completed) h (fun s₁ hh => ?_) fun t u ht hu => ?_
  · cases hh with
    | complete i q w ups hi hn => exact mem_append_left _ hx
    | completeCheckpoint i q w ups hi hn => exact mem_append_left _ hx
    | _ => exact hx
  · cases hu <;> exact ht

end PlanController

namespace ControlPlane

open PlanController DelayedCombiner

variable {job : MapJoin K M O B} {s s' : ControlPlane K M B}

/-! ## Announced versions are complete -/

theorem Flow.once (h : Flow job s) (hn : 0 < (job.partToNode job.mapCollectionId).length)
    (n : Int) : Once (job.spec n) (s.controller n).pc :=
  (reachIf_induct (P := Once (job.spec n)) (h.runs n) sound_stable once_setup
    (fun _ _ _ hB hP ha hh => once_head hn hB hP ha hh) fun _ _ hB hP ht => once_tail hB hP ht).2

/-- All outputs of a counted version are applied, each once. -/
theorem Flow.applied_of_completed (h : Flow job s) {p w u : Int} (hp : p ∈ job.updateParts)
    (hu : u ∈ job.mapParts) (hw : (p, w) ∈ (s.controller (job.owner p)).pc.completed) :
    tokensIn (s.controller (job.owner p)).pc.applied p w u = 1 := by
  obtain ⟨h0, hlt⟩ := MapJoin.mem_mapParts.mp hu
  have honce := h.once (by omega) (job.owner p)
  have hsound := h.sound (job.owner p)
  have hpos := tokensIn_pos.mpr (forgotten_applied hsound ((honce.full p w hw).2 u h0 hlt))
  have hle := tokensIn_applied_le hsound p w u
  have hone := h.inSystem_le_one (w := w) hp hu
  unfold inSystem at hone
  omega

/-- Every version that the plan has passed was counted by every partition. -/
def Complete (job : MapJoin K M O B) (s : ControlPlane K M B) : Prop :=
  ∀ p ∈ job.updateParts, ∀ w, 0 ≤ w → w < s.sched.versions →
    (p, w) ∈ (s.controller (job.owner p)).pc.completed

section Complete

variable (hc : job.mapCollectionId = job.updateCollectionId) (hstale : job.staleness = 0)
include hc hstale

omit hstale in
theorem mapParts_pos : 0 < (job.partToNode job.mapCollectionId).length := by
  rw [hc]
  exact length_pos_iff.mpr job.update_ne_nil

/-- Without staleness, nothing above the version of the plan is counted. -/
theorem Flow.completed_le (h : Flow job s) (hsync : Synced job s) {p w : Int}
    (hp : p ∈ job.updateParts) (hw : (p, w) ∈ (s.controller (job.owner p)).pc.completed) :
    w ≤ s.sched.versions := by
  have hpos := mapParts_pos hc
  have hfull := ((h.once hpos (job.owner p)).full p w hw).2 0 le_rfl
    (by exact_mod_cast hpos)
  obtain ⟨m, hm, hcov⟩ := forgotten_applied (h.sound (job.owner p)) hfull
  have hrec := mem_received (h.sound (job.owner p)) (.inr (.inr (.inr hm)))
  have := h.received_version_le hsync hp hrec hcov
  omega

theorem complete_move [LinearOrder K] {e : PlaneEvent} (h : Flow job s) (hsync : Synced job s)
    (hC : Complete job s) (hm : Move job s e s') : Complete job s' := by
  intro p hp w h0 hw
  rcases move_sched hm with hsched | ⟨n, r, hr, hs, hpc⟩
  · have hold := hC p hp w h0 (hsched ▸ hw)
    rcases move_pc hm (job.owner p) with hpc | ⟨a, hstep, -⟩
    · exact hpc ▸ hold
    · exact completed_step hstep hold
  · obtain ⟨hinv, hver, hpart⟩ := hsync.control h hr hs
    rw [hpc]
    rcases hver with hver | hver
    · exact hC p hp w h0 (hver ▸ hw)
    · -- every partition has counted one more version than the old one
      have hmany : s.sched.versions + 1 ≤
          (s.controller (job.owner p)).pc.updateVersions.val p := by
        rw [← hver]
        exact (hinv.le p hp).trans (hpart p hp)
      refine counted_of_lt (h.once (mapParts_pos hc) (job.owner p))
        (counted_stable.reachIf (h.runs (job.owner p))) hmany (fun v hv => ?_) h0 (hver ▸ hw)
      have := h.completed_le hc hstale hsync hp hv
      omega

theorem complete_reachable [LinearOrder K] (hs : Reachable job s) :
    (Flow job s ∧ Synced job s) ∧ Complete job s := by
  refine hs.induct (P := fun s => (Flow job s ∧ Synced job s) ∧ Complete job s)
    ⟨⟨flow_init, synced_init⟩, fun p _ w h0 hw => ?_⟩ fun _ _ _ h hm => ?_
  · have hw : w < 0 := hw
    omega
  · exact ⟨⟨flow_move h.1.1 hm, synced_move h.1.1 h.1.2 hm⟩,
      complete_move hc hstale h.1.1 h.1.2 h.2 hm⟩

end Complete

/-! ## Isolation -/

/-- **BSP isolation.**  Let maps and updates be of one collection.  An update that is applied, or
may be about to be, finds the maps of its own and of all lower versions finished.  With
staleness 0, while a map of version `v` is launched or running, the partition has had applied the
output of every upstream partition for every version below `v`, once, and nothing else. -/
theorem bsp_isolation [LinearOrder K] (job : MapJoin K M O B)
    (hc : job.mapCollectionId = job.updateCollectionId) (s : ControlPlane K M B)
    (hs : Reachable job s) (n : Int) :
    (∀ m, m ∈ (s.controller n).pc.applied ∨ m ∈ (s.controller n).pc.runningJoins →
      ∀ v, 0 ≤ v → v ≤ m.version → (m.partId, v) ∈ (s.controller n).pc.mapped ∧
        v < (s.controller n).pc.mapVersions.val m.partId) ∧
    (job.staleness = 0 → ∀ t ∈ (s.controller n).pc.mapExecutor, ∀ w u,
      tokensIn (s.controller n).pc.applied t.partId w u =
        if 0 ≤ w ∧ w < t.version ∧ u ∈ job.mapParts then 1 else 0) := by
  obtain ⟨hF, hsync⟩ := synced_reachable hs
  have hlater := (later_stable (c := job.spec n) hc).reachIf (hF.runs n)
  refine ⟨fun m hm v h0 hv => ?_, fun hstale t ht w u => ?_⟩
  · have hver : m.version < (s.controller n).pc.mapVersions.val m.partId := by
      rcases hm with hm | hm
      · exact hlater.2.applied m hm
      · exact hlater.2.running m hm
    refine ⟨count_pos_iff.mp ?_, by omega⟩
    rw [(hF.maps n).mapped, if_pos (by omega)]
    exact Nat.one_pos
  · have hlocal : t.partId ∈ job.mapParts ∧ job.home t.partId = n := by
      obtain ⟨i, hi⟩ := getElem?_of_mem ht
      have huse : t.use ∈ (s.controller n).pc.inUse :=
        (inUse_eraseMap _ hi).mem_iff.mpr mem_cons_self
      exact MapJoin.mem_spec_map.mp (hlater.1.inUse _ huse)
    have hp : t.partId ∈ job.updateParts := by
      have := hlocal.1
      rwa [MapJoin.mapParts, hc] at this
    have hown : job.owner t.partId = n := by
      have := hlocal.2
      rwa [MapJoin.home, hc] at this
    have hver := (hF.maps n).task t ht
    split_ifs with hw
    · -- a version below `v` was passed by the plan
      have hle := (hF.maps n).taskBound t ht
      have hmin := hsync.min n
      have hlt : w < s.sched.versions := by
        have : (job.spec n).staleness = 0 := hstale
        omega
      have hcomp := (complete_reachable hc hstale hs).2 t.partId hp w hw.1 hlt
      exact hown ▸ hF.applied_of_completed hp hw.2.2 hcomp
    · by_contra hne
      obtain ⟨m, hm, hcov⟩ := tokensIn_pos.mp (Nat.pos_of_ne_zero hne)
      have hrec := mem_received (hF.sound n) (.inr (.inr (.inr hm)))
      obtain ⟨hm0, hrange⟩ := (hF.arrivals n).range m hrec
      have hbelow := hlater.2.applied m hm
      obtain ⟨⟨hmp, hmw⟩, hu⟩ := hcov
      rw [hmp] at hbelow
      exact hw ⟨by omega, by omega, MapJoin.mem_mapParts.mpr (hrange u hu)⟩

end ControlPlane

/-- A word of integers, read off one by one. -/
def intCodec : Codec Int Int where
  enc n := [n]
  dec
    | [] => none
    | n :: rest => some (n, rest)
  dec_enc _ _ := rfl
  enc_ne_nil _ := by simp

/-- Two nodes with a partition each, keys 0 and 1; every map adds one to both keys. -/
def twoNodes (fetchCollectionId numIter staleness combineTimeout : Int) :
    MapJoin Int Int (Int × Int) Int where
  planId := 0
  nodes := [1, 2]
  partToNode := fun _ => [1, 2]
  mapCollectionId := 0
  updateCollectionId := 0
  fetchCollectionId := fetchCollectionId
  numIter := numIter
  staleness := staleness
  combineTimeout := combineTimeout
  mapper := fun k => if k = 1 then 1 else 0
  map := fun _ _ => [(0, 1), (1, 1)]
  combine := some (· + ·)
  sort := fun l => l
  obj := ⟨Prod.fst, fun k => (k, 0), fun _ => rfl⟩
  update := fun o m => (o.1, o.2 + m)
  keyCodec := intCodec
  msgCodec := intCodec
  initial := fun _ => .empty
  nodes_nodup := by decide
  node_mem := fun _ n h => h
  update_ne_nil := by simp
  mapper_mem := fun k => by
    rw [mem_partsOf]
    split <;> simp
  sort_perm := fun l => List.Perm.refl l
  path_ne := fun h => absurd rfl h

def twoRounds := twoNodes (-1) 2 0 (-1)

/-- Both nodes map and update version 0 and report; node 1 is told of version 1. -/
def oneRound : List (Int × PlaneEvent) :=
  [(1, .hear), (2, .hear), (1, .beginMap 0), (1, .endMap 0), (1, .process 0), (2, .beginMap 0),
    (2, .endMap 0), (2, .process 0), (1, .deliver 0), (1, .deliver 0), (2, .deliver 0),
    (2, .deliver 0), (1, .execFetch 0), (1, .process 0), (1, .execFetch 0), (1, .process 0),
    (2, .execFetch 0), (2, .process 0), (2, .execFetch 0), (2, .process 0), (1, .tell), (1, .tell),
    (2, .tell), (2, .tell), (1, .hear)]

namespace ControlPlane

/-- The map of version 1 that is launched at the end has both outputs of version 0. -/
theorem bsp_isolation_oneRound :
    ∃ s, run (step (twoNodes (-1) 2 0 (-1))) (init (twoNodes (-1) 2 0 (-1))) oneRound = .ok s ∧
      ⟨0, 1, false⟩ ∈ (s.controller 1).pc.mapExecutor ∧
      tokensIn (s.controller 1).pc.applied 0 0 0 = 1 ∧
      tokensIn (s.controller 1).pc.applied 0 0 1 = 1 ∧
      tokensIn (s.controller 1).pc.applied 0 1 0 = 0 := by
  refine ⟨_, rfl, by decide, ?_⟩
  have h := (bsp_isolation (twoNodes (-1) 2 0 (-1)) rfl _ (reach_of_run oneRound rfl) 1).2 rfl
    ⟨0, 1, false⟩ (by decide)
  exact ⟨h 0 0, h 0 1, h 1 0⟩

/-- **No output is lost or doubled.**  From the end of a map on there is one copy of its output for
an update partition: at a combiner, under way, received or dropped. -/
theorem output_conserved [LinearOrder K] (job : MapJoin K M O B) (s : ControlPlane K M B)
    (hs : Reachable job s) (p u : Int) (hp : p ∈ job.updateParts) (hu : u ∈ job.mapParts) (w : Int) :
    inSystem job s p w u =
      if 0 ≤ w ∧ w < (s.controller (job.home u)).pc.mapVersions.val u +
        (s.controller (job.home u)).pc.unfinished u then 1 else 0 := by
  have hF := flow_reachable hs
  rw [hF.tokens p hp u hu w]
  exact (hF.maps _).mapped u w

theorem output_conserved_oneRound :
    Ends (step twoRounds) (init twoRounds) oneRound fun s => inSystem twoRounds s 1 0 0 = 1 :=
  ⟨_, rfl, output_conserved _ _ (reach_of_run oneRound rfl) 1 0 (by decide) (by decide) 0⟩

/-- **Clocks.**  A controller is not ahead of the manager, the manager is not ahead of any
partition, and a map is not by more than the staleness. -/
theorem clocks_ordered [LinearOrder K] (job : MapJoin K M O B) (s : ControlPlane K M B)
    (hs : Reachable job s) (n p : Int) (hp : p ∈ job.updateParts) :
    (s.controller n).pc.minVersion ≤ s.sched.versions ∧
      s.sched.versions ≤ s.sched.update.part.val p ∧
      s.sched.update.part.val p ≤ (s.controller (job.owner p)).pc.updateVersions.val p ∧
      ∀ t ∈ (s.controller n).pc.mapExecutor,
        t.version ≤ (s.controller (job.owner p)).pc.updateVersions.val p + job.staleness := by
  obtain ⟨hF, hsync⟩ := synced_reachable hs
  refine ⟨hsync.min n, hsync.inv.le p hp, hsync.part p hp, fun t ht => ?_⟩
  have hbound := (hF.maps n).taskBound t ht
  have hle := (hsync.min n).trans (hsync.versions_le hp)
  exact hbound.trans (Int.add_le_add_right hle _)

theorem clocks_ordered_oneRound :
    Ends (step twoRounds) (init twoRounds) oneRound fun s => 1 ≤ s.sched.update.part.val 1 :=
  ⟨_, rfl, (clocks_ordered twoRounds _ (reach_of_run oneRound rfl) 1 1 (by decide)).2.1⟩

end ControlPlane

end Tangram
