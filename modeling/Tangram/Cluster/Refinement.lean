import Tangram.Cluster.Finish

/-!
# A distributed MapUpdate is a sequential one

At the end of a plan of one iteration every object is what one machine would have
made of it: the messages for its key, in the order of the map partitions and of
their output, applied one after the other (`mapUpdate_refines`).
-/

namespace Tangram

open StepRun List
open scoped List

variable {K M O B : Type}

/-! ## The sequential program -/

namespace MapJoin

variable [LinearOrder K] (job : MapJoin K M O B)

/-- All that the maps of version 0 emit, one partition after the other. -/
def emitted : List (K × M) := job.mapParts.flatMap fun u => job.map u 0

/-- The object of key `k` in partition `p` after a sequential run. -/
def sequential (p : Int) (k : K) : Option O :=
  if job.mapper k = p then
    IndexedSeqPartition.seqUpdate job.obj job.update k ((job.initial p).get? job.obj k)
      (msgsOf k job.emitted)
  else (job.initial p).get? job.obj k

/-- The messages for one key can be applied in any order. -/
def Commutes : Prop :=
  ∀ k, ∀ a ∈ msgsOf k job.emitted, ∀ b ∈ msgsOf k job.emitted, ∀ o,
    job.update (job.update o a) b = job.update (job.update o b) a

end MapJoin

/-! ## The distributed program -/

namespace Cluster

open ControlPlane PlanController DelayedCombiner IndexedSeqPartition

variable [LinearOrder K] {job : MapJoin K M O B} {s : Cluster K M O B}

/-- The messages of a key among the outputs for partition `p`. -/
theorem msgsOf_emittedBelow (p : Int) (k : K) : msgsOf k (job.emittedBelow p 1) =
    if job.mapper k = p then msgsOf k job.emitted else [] := by
  have hmaps : job.mapsBelow 1 = job.mapParts.map fun u => (0, u) := by
    simp [MapJoin.mapsBelow, List.product]
  rw [MapJoin.emittedBelow, hmaps, flatMap_map, MapJoin.emitted]
  induction job.mapParts with
  | nil => simp
  | cons u us ih =>
    rw [flatMap_cons, msgsOf_append, ih, msgsOf_outputBuffer, flatMap_cons, msgsOf_append]
    split <;> rfl

/-- **Refinement.** -/
theorem Contents.sequential (h : Contents job s) (hcomm : job.Commutes) {p : Int}
    (hall : AllApplied job s.toControlPlane p) (k : K) :
    (s.partitions (job.owner p) p).get? job.obj k = job.sequential p k := by
  have hout : (appliedTo (s.controller (job.owner p)) p).flatMap job.outputs ~
      job.emittedBelow p 1 := by
    refine MapJoin.outputs_perm (fun m hm => of_decide_eq_true (mem_filter.mp hm).2)
      fun w u => ?_
    rw [tokensIn_appliedTo, hall w u]
    refine if_congr ⟨?_, ?_⟩ rfl rfl
    · rintro ⟨rfl, hu⟩
      exact ⟨le_rfl, Int.zero_lt_one, hu⟩
    · rintro ⟨h0, h1, hu⟩
      exact ⟨by omega, hu⟩
  obtain ⟨ms, hms, hget⟩ := ((h.holds (job.owner p) p).perm hout).2 k
  rw [msgsOf_emittedBelow] at hms
  rw [hget]
  unfold MapJoin.sequential
  split at hms
  · next hk =>
    rw [if_pos hk]
    refine seqUpdate_perm hms fun a ha b hb => ?_
    exact hcomm k a (hms.mem_iff.mp ha) b (hms.mem_iff.mp hb)
  · next hk =>
    rw [if_neg hk, hms.eq_nil]
    rfl

/-- Every map output is combined by itself; both nodes map, update and report. -/
def combinedRound : List (Int × ClusterEvent) :=
  ([(1, .hear), (2, .hear), (1, .beginMap 0), (1, .endMap 0), (1, .process 0), (2, .beginMap 0),
    (2, .endMap 0), (2, .process 0), (1, .combine 1), (1, .combine 0), (2, .combine 0),
    (2, .combine 0), (1, .deliver 1), (1, .deliver 0), (2, .deliver 0), (2, .deliver 0),
    (1, .execFetch 0), (1, .process 0), (1, .execFetch 0), (1, .process 0), (2, .execFetch 0),
    (2, .process 0), (2, .execFetch 0), (2, .process 0), (1, .tell), (1, .tell), (2, .tell),
    (2, .tell)] : List (Int × PlaneEvent)).map fun a => (a.1, .plane a.2)

/-- **The end of any plan.**  After all iterations, with any staleness, a partition is its initial
contents with every output of every map applied once, and no other copy of an output is left. -/
theorem finished_contents (hiter : 0 ≤ job.numIter) (hU : ∀ p, Unsorted (job.initial p))
    (hcomb : job.CombineLaw) (hs : Reachable job s) (hend : job.numIter ≤ s.sched.versions) (p : Int)
    (hp : p ∈ job.updateParts) :
    Holds job p (s.partitions (job.owner p) p) (job.emittedBelow p job.numIter) ∧
      ∀ u ∈ job.mapParts, ∀ w, inSystem job s.toControlPlane p w u =
        tokensIn (s.controller (job.owner p)).pc.applied p w u := by
  obtain ⟨hF, hsync⟩ := synced_reachable hs.plane
  refine ⟨((contents_reachable hcomb hU hs).holds _ p).perm ?_,
    fun u hu w => hF.inSystem_finished hiter hp hsync hend hu⟩
  refine MapJoin.outputs_perm (fun m hm => of_decide_eq_true (mem_filter.mp hm).2) fun w u => ?_
  rw [tokensIn_appliedTo]
  exact hF.applied_finished hiter hp hsync hend

theorem finished_contents_twoRounds :
    ∃ s, Reachable twoRounds s ∧ Holds twoRounds 1 (s.partitions 2 1) (twoRounds.emittedBelow 1 2) := by
  obtain ⟨s, hs, hend⟩ : Ends (step twoRounds) (init twoRounds)
      ((oneRound ++ oneRound.tail).map fun a => (a.1, .plane a.2)) fun s => 2 ≤ s.sched.versions := by
    decide +kernel
  refine ⟨s, reach_of_run _ hs, (finished_contents (by decide) (fun _ => unsorted_empty)
    (fun c hc o a b => ?_) (reach_of_run _ hs) hend 1 (by decide)).1⟩
  cases Option.some.inj hc
  exact congrArg (Prod.mk o.1) (Int.add_assoc _ _ _)

end Cluster

end Tangram
