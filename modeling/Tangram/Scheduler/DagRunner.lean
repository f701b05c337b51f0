import Tangram.Plan.Dag
import Tangram.Scheduler.CollectionStatus

/-!
# Running the plans of a program

The two dag runners (`core/scheduler/dag_runner.cpp`) and, for the wide one, the
part of the scheduler that starts and finishes plans (`TryRunPlan`, `RunPlan` and
`kFinishPlan` of `core/scheduler/scheduler.cpp`): a plan that can be run is entered
into the `CollectionStatus`, and leaves it when it finishes.

The graph orders what one plan wrote and a later one reads or writes; a plan that
reads a collection is not ordered before a later one that writes it.  Programs in
which such pairs are ordered by other collections (`ReadsOrdered`) run as their
order of definition asks for.
-/

namespace Tangram

open StepRun Relation List CollectionStatus

/-! ## The runners -/

inductive RunnerCheck
  | front | planCount | running
  | vistor (e : DagCheck)
  | status (e : StatusCheck)
deriving DecidableEq, Repr

/-- Runs the plans one by one, in the order of their ids. -/
structure SequentialDagRunner where
  dagVistor : DagVistor
  planCount : Int

namespace SequentialDagRunner

def ofDag (d : Dag) : SequentialDagRunner := ⟨.ofDag d, 0⟩

def getRunnablePlans (r : SequentialDagRunner) : Except RunnerCheck (List Int) := do
  check .front (r.planCount ∈ r.dagVistor.getFront)
  return [r.planCount]

def finish (r : SequentialDagRunner) (id : Int) : Except RunnerCheck SequentialDagRunner := do
  check .planCount (id = r.planCount)
  let v ← (r.dagVistor.finish id).mapError .vistor
  return ⟨v, r.planCount + 1⟩

end SequentialDagRunner

/-- Runs as many plans as possible. -/
structure WideDagRunner where
  dagVistor : DagVistor
  running : OrdSet Int

namespace WideDagRunner

def ofDag (d : Dag) : WideDagRunner := ⟨.ofDag d, .empty⟩

/-- The turn of the loop in `GetRunnablePlans`. -/
def pick (x : List Int × OrdSet Int) (plan : Int) : List Int × OrdSet Int :=
  if plan ∉ x.2 then (x.1 ++ [plan], x.2.insert plan) else x

def getRunnablePlans (r : WideDagRunner) : List Int × WideDagRunner :=
  let x := r.dagVistor.getFront.foldl pick ([], r.running)
  (x.1, { r with running := x.2 })

def finish (r : WideDagRunner) (id : Int) : Except RunnerCheck WideDagRunner := do
  check .running (id ∈ r.running)
  let v ← (r.dagVistor.finish id).mapError .vistor
  return ⟨v, r.running.erase id⟩

theorem foldl_pick (l : List Int) (x : List Int × OrdSet Int) :
    ∃ new, (l.foldl pick x).1 = x.1 ++ new ∧ new.Nodup ∧
      (∀ i, i ∈ new ↔ i ∈ l ∧ i ∉ x.2) ∧ ∀ i, i ∈ (l.foldl pick x).2 ↔ i ∈ x.2 ∨ i ∈ new := by
  induction l generalizing x with
  | nil => exact ⟨[], by simp⟩
  | cons a l ih =>
    obtain ⟨new, h₁, hnd, hnew, h₂⟩ := ih (pick x a)
    rw [foldl_cons]
    by_cases ha : a ∈ x.2
    · have hpick : pick x a = x := if_neg (not_not.mpr ha)
      rw [hpick] at h₁ hnew h₂ ⊢
      refine ⟨new, h₁, hnd, fun i => ?_, h₂⟩
      rw [hnew, mem_cons]
      constructor
      · exact fun h => ⟨.inr h.1, h.2⟩
      · rintro ⟨rfl | h, hi⟩
        · exact absurd ha hi
        · exact ⟨h, hi⟩
    · have hpick : pick x a = (x.1 ++ [a], x.2.insert a) := if_pos ha
      rw [hpick] at h₁ hnew h₂ ⊢
      simp only [OrdSet.mem_insert, not_or] at hnew h₂
      refine ⟨a :: new, by simp [h₁], nodup_cons.mpr ⟨fun h => ((hnew a).mp h).2.1 rfl, hnd⟩,
        fun i => ?_, fun i => ?_⟩
      · rw [mem_cons, hnew, mem_cons]
        by_cases hi : i = a
        · subst hi
          simp [ha]
        · simp [hi]
      · rw [h₂, mem_cons]
        tauto

end WideDagRunner

/-! ## Starting and finishing plans -/

/-- What the scheduler enters for a plan: a collection that is read and written counts as
written (`GetReadWrite`). -/
def PlanNode.getReadWrite (p : PlanNode) : ReadWriteVector := ⟨p.read.filter (· ∉ p.write), p.write⟩

/-- The scheduler with the wide runner; `finished` is a record of the run. -/
structure WideScheduler where
  runner : WideDagRunner
  status : CollectionStatus
  finished : List Int

namespace WideScheduler

variable (prog : List PlanNode)

def init : WideScheduler := ⟨.ofDag (.ofProgram prog), .empty, []⟩

/-- `program_.specs[id].GetReadWrite()`. -/
def readWrite (id : Int) : ReadWriteVector :=
  ((prog.find? fun p => p.id = id).map PlanNode.getReadWrite).getD ⟨[], []⟩

def runPlan (status : CollectionStatus) (id : Int) : Except RunnerCheck CollectionStatus :=
  (status.addPlan id (readWrite prog id)).mapError .status

/-- `TryRunPlan`; with no plan left the program exits. -/
def tryRunPlan (s : WideScheduler) : Except RunnerCheck WideScheduler :=
  if s.runner.dagVistor.getNumDagNodes = 0 then .ok s
  else do
    let status ← s.runner.getRunnablePlans.1.foldlM (runPlan prog) s.status
    return { s with runner := s.runner.getRunnablePlans.2, status := status }

def finishPlan (s : WideScheduler) (id : Int) : Except RunnerCheck WideScheduler := do
  let runner ← s.runner.finish id
  let status ← (s.status.finishPlan id).mapError .status
  return ⟨runner, status, id :: s.finished⟩

inductive Event
  | tryRunPlan
  | finishPlan (id : Int)

def step (s : WideScheduler) : Event → Except RunnerCheck WideScheduler
  | .tryRunPlan => s.tryRunPlan prog
  | .finishPlan id => s.finishPlan id

/-- Only a plan that runs finishes. -/
def Allowed (s : WideScheduler) : Event → Prop
  | .tryRunPlan => True
  | .finishPlan id => id ∈ s.runner.running

instance (s : WideScheduler) (e : Event) : Decidable (Allowed s e) := by
  cases e <;> (unfold Allowed; infer_instance)

def Reachable (s : WideScheduler) : Prop := Reach (step prog) Allowed (init prog) s

/-! ## Order -/

/-- Where a plan writes what an earlier one reads, the two are also ordered by what plans wrote
and later ones read or wrote. -/
def ReadsOrdered (prog : List PlanNode) : Prop :=
  ∀ a b, Before prog a b → (∃ c ∈ a.read, c ∈ b.write) → TransGen (Feeds prog) a b

section Order

variable {prog} {s s' : WideScheduler} {a b : PlanNode}

theorem before_total (ha : a ∈ prog) (hb : b ∈ prog) (hne : a ≠ b) :
    Before prog a b ∨ Before prog b a := by
  induction prog using List.reverseRecOn with
  | nil => exact absurd ha not_mem_nil
  | append_singleton prog p ih =>
    simp only [before_concat]
    rcases mem_append.mp ha with ha | ha <;> rcases mem_append.mp hb with hb | hb
    · rcases ih ha hb with h | h
      · exact .inl (.inl h)
      · exact .inr (.inl h)
    · exact .inl (.inr ⟨mem_singleton.mp hb, ha⟩)
    · exact .inr (.inr ⟨mem_singleton.mp ha, hb⟩)
    · exact absurd ((mem_singleton.mp ha).trans (mem_singleton.mp hb).symm) hne

theorem conflict_path (hwf : Wellformed prog) (hro : ReadsOrdered prog) (hab : Before prog a b)
    (hc : Conflict a b) : TransGen (Dag.Edge (.ofProgram prog)) a.id b.id := by
  have hfeeds : TransGen (Feeds prog) a b := by
    rcases hc with ⟨c, hca, hcb⟩ | ⟨c, hcb, hca | hca⟩
    · exact .single ⟨hab, c, hca, hcb⟩
    · exact hro a b hab ⟨c, hca, hcb⟩
    · exact .single ⟨hab, c, hca, .inr hcb⟩
  exact TransGen.lift' PlanNode.id (fun a b h => Dag.feeds_path hwf h) a b hfeeds

/-- What holds of the scheduler: the running plans depend on nothing that is not finished, and
they are the plans of the `CollectionStatus`. -/
structure Inv (prog : List PlanNode) (s : WideScheduler) : Prop where
  vistor : DagVistor.Inv (.ofProgram prog) s.finished s.runner.dagVistor
  running : ∀ id ∈ s.runner.running, id ∈ s.runner.dagVistor.nodes.keys ∧
    ∀ i, Dag.Edge (.ofProgram prog) i id → i ∈ s.finished
  status : s.status.Inv
  current : ∀ id, id ∈ s.status.curPlans.keys ↔ id ∈ s.runner.running
  rw : ∀ id ∈ s.status.curPlans.keys, s.status.rw id = readWrite prog id

theorem inv_init (hwf : Wellformed prog) : Inv prog (init prog) where
  vistor := DagVistor.inv_ofDag (Dag.of_ofProgram hwf.distinct)
  running := fun id hid => absurd hid (OrdSet.notMem_empty id)
  status := inv_empty
  current := fun _ => Iff.rfl
  rw := fun id hid => absurd hid (OrdSet.notMem_empty id)

/-- **A plan that can run is ready**: an earlier plan it conflicts with is finished. -/
theorem Inv.finished_of_ready (h : Inv prog s) (hwf : Wellformed prog) (hro : ReadsOrdered prog)
    (hab : Before prog a b) (hc : Conflict a b)
    (hready : ∀ i, Dag.Edge (.ofProgram prog) i b.id → i ∈ s.finished) : a.id ∈ s.finished :=
  h.vistor.closed_path (conflict_path hwf hro hab hc) hready

/-- Two plans that are both ready and not finished do not conflict. -/
theorem Inv.not_conflict (h : Inv prog s) (hwf : Wellformed prog) (hro : ReadsOrdered prog)
    (ha : a ∈ prog) (hb : b ∈ prog) (hne : a ≠ b)
    (hka : a.id ∈ s.runner.dagVistor.nodes.keys) (hkb : b.id ∈ s.runner.dagVistor.nodes.keys)
    (hra : ∀ i, Dag.Edge (.ofProgram prog) i a.id → i ∈ s.finished)
    (hrb : ∀ i, Dag.Edge (.ofProgram prog) i b.id → i ∈ s.finished) : ¬ Conflict a b := by
  intro hc
  rcases before_total ha hb hne with hab | hba
  · exact ((h.vistor.keys _).mp hka).2 (h.finished_of_ready hwf hro hab hc hrb)
  · exact ((h.vistor.keys _).mp hkb).2 (h.finished_of_ready hwf hro hba hc.symm hra)

/-- The plan of the program with a given id. -/
theorem exists_plan (hwf : Wellformed prog) {id : Int} (hid : id ∈ prog.map PlanNode.id) :
    ∃ p ∈ prog, p.id = id ∧ readWrite prog id = p.getReadWrite := by
  obtain ⟨p, hp, rfl⟩ := mem_map.mp hid
  have hfind : prog.find? (fun q => q.id = p.id) = some p := by
    obtain ⟨q, hq⟩ : ∃ q, prog.find? (fun q => q.id = p.id) = some q :=
      Option.isSome_iff_exists.mp (find?_isSome.mpr ⟨p, hp, by simp⟩)
    have hqp : q = p := inj_on_of_nodup_map hwf.nodup (mem_of_find?_eq_some hq) hp
      (by simpa using find?_some hq)
    rw [hq, hqp]
  exact ⟨p, hp, rfl, by rw [readWrite, hfind]; rfl⟩

/-- Plans that are pairwise without conflict, and without one with those that run, can all be
entered. -/
theorem foldlM_runPlan (hwf : Wellformed prog) (l : List Int) (status : CollectionStatus)
    (hnd : l.Nodup) (hinv : status.Inv) (hnew : ∀ id ∈ l, id ∉ status.curPlans.keys)
    (hprog : ∀ id, id ∈ l ∨ id ∈ status.curPlans.keys → id ∈ prog.map PlanNode.id)
    (hrw : ∀ id ∈ status.curPlans.keys, status.rw id = readWrite prog id)
    (hfree : ∀ a ∈ prog, ∀ b ∈ prog, a ≠ b → (a.id ∈ l ∨ a.id ∈ status.curPlans.keys) →
      (b.id ∈ l ∨ b.id ∈ status.curPlans.keys) → ¬ Conflict a b) :
    ∃ status', l.foldlM (runPlan prog) status = .ok status' ∧ status'.Inv ∧
      (∀ id, id ∈ status'.curPlans.keys ↔ id ∈ l ∨ id ∈ status.curPlans.keys) ∧
      ∀ id ∈ status'.curPlans.keys, status'.rw id = readWrite prog id := by
  induction l generalizing status with
  | nil => exact ⟨status, rfl, hinv, by simp, hrw⟩
  | cons id l ih =>
    obtain ⟨hid, hrest⟩ := nodup_cons.mp hnd
    obtain ⟨p, hp, rfl, hread⟩ := exists_plan hwf (hprog id (.inl mem_cons_self))
    have hself : ∀ w ∈ p.getReadWrite.second, w ∉ p.getReadWrite.first := by
      intro w hw
      simpa [PlanNode.getReadWrite] using fun _ => hw
    obtain ⟨status₁, hadd, hinv₁, hcur₁, -⟩ := addPlan_ok hinv
      (hnew p.id mem_cons_self) (hwf.writes p hp) hself fun id' hid' w hw => by
        -- what `p` writes is neither read nor written by a plan that runs
        obtain ⟨q, hq, rfl, hreadq⟩ := exists_plan hwf (hprog id' (.inr hid'))
        have hne : q ≠ p := by
          rintro rfl
          exact hnew q.id mem_cons_self hid'
        have hnc := hfree q hq p hp hne (.inr hid') (.inl mem_cons_self)
        rw [hrw _ hid', hreadq]
        constructor
        · exact fun hr => hnc (.inr ⟨w, hw, .inl (mem_of_mem_filter hr)⟩)
        · exact fun hr => hnc (.inr ⟨w, hw, .inr hr⟩)
    have hrun : runPlan prog status p.id = .ok status₁ := by
      rw [runPlan, hread, hadd]
      rfl
    have hkeys : ∀ id, id ∈ status₁.curPlans.keys ↔ id = p.id ∨ id ∈ status.curPlans.keys := by
      intro id
      rw [hcur₁, OrdMap.keys_set, OrdSet.mem_insert]
    -- of the plans to run and those that run, there are none but before
    have hmem : ∀ id, id ∈ l ∨ id ∈ status₁.curPlans.keys →
        id ∈ p.id :: l ∨ id ∈ status.curPlans.keys := by
      rintro id (h | h)
      · exact .inl (mem_cons_of_mem _ h)
      · rcases (hkeys id).mp h with rfl | h
        · exact .inl mem_cons_self
        · exact .inr h
    obtain ⟨status', hall, hinv', hcur', hrw'⟩ := ih status₁ hrest hinv₁
      (fun id' hid' hmem' => by
        rcases (hkeys id').mp hmem' with rfl | h
        · exact hid hid'
        · exact hnew id' (mem_cons_of_mem _ hid') h)
      (fun id' h => hprog id' (hmem id' h))
      (fun id' hid' => by
        rw [rw, hcur₁, rw_set]
        split
        · next h => rw [h, hread]
        · next h => exact hrw id' (((hkeys id').mp hid').resolve_left h))
      fun a ha b hb hne hia hib => hfree a ha b hb hne (hmem _ hia) (hmem _ hib)
    refine ⟨status', ?_, hinv', fun id => ?_, hrw'⟩
    · rw [foldlM_cons, hrun]
      exact hall
    · rw [hcur', hkeys, mem_cons]
      tauto

theorem Inv.tryRunPlan (h : Inv prog s) (hwf : Wellformed prog) (hro : ReadsOrdered prog) :
    ∃ s', s.tryRunPlan prog = .ok s' ∧ Inv prog s' := by
  unfold WideScheduler.tryRunPlan
  split
  · exact ⟨s, rfl, h⟩
  have hof := Dag.of_ofProgram hwf.distinct
  obtain ⟨new, h₁, hnd, hnew, h₂⟩ :=
    WideDagRunner.foldl_pick s.runner.dagVistor.getFront ([], s.runner.running)
  have hplans : s.runner.getRunnablePlans.1 = new := h₁.trans (nil_append _)
  have hrunning : ∀ id, id ∈ s.runner.getRunnablePlans.2.running ↔
      id ∈ s.runner.running ∨ id ∈ new := h₂
  -- whatever runs now is ready
  have hready : ∀ id, id ∈ s.runner.running ∨ id ∈ new →
      id ∈ s.runner.dagVistor.nodes.keys ∧
        ∀ i, Dag.Edge (.ofProgram prog) i id → i ∈ s.finished := by
    rintro id (hid | hid)
    · exact h.running id hid
    · exact (h.vistor.mem_getFront hof).mp ((hnew id).mp hid).1
  have hany : ∀ id, id ∈ new ∨ id ∈ s.status.curPlans.keys → id ∈ s.runner.running ∨ id ∈ new :=
    fun id hid => hid.elim .inr fun hid => .inl ((h.current id).mp hid)
  obtain ⟨status', hrun, hinv', hcur', hrw'⟩ := foldlM_runPlan hwf new s.status hnd h.status
    (fun id hid hmem => ((hnew id).mp hid).2 ((h.current id).mp hmem))
    (fun id hid => (hof.keys id).mp ((h.vistor.keys id).mp (hready id (hany id hid)).1).1)
    h.rw
    fun a ha b hb hne hia hib =>
      h.not_conflict hwf hro ha hb hne (hready _ (hany _ hia)).1 (hready _ (hany _ hib)).1
        (hready _ (hany _ hia)).2 (hready _ (hany _ hib)).2
  rw [hplans, hrun]
  refine ⟨_, rfl, h.vistor, fun id hid => hready id ((hrunning id).mp hid), hinv', fun id => ?_,
    hrw'⟩
  rw [hcur', hrunning, h.current id, or_comm]

theorem Inv.finishPlan (h : Inv prog s) (hwf : Wellformed prog) {id : Int}
    (hid : id ∈ s.runner.running) : ∃ s', s.finishPlan id = .ok s' ∧ Inv prog s' := by
  obtain ⟨hkey, hready⟩ := h.running id hid
  obtain ⟨v, hv, hvinv⟩ := h.vistor.finish (Dag.of_ofProgram hwf.distinct) hkey hready
  obtain ⟨status, hst, hsinv, hcur, -⟩ :=
    CollectionStatus.finishPlan_ok h.status ((h.current id).mpr hid)
  refine ⟨⟨⟨v, s.runner.running.erase id⟩, status, id :: s.finished⟩, ?_, hvinv, ?_, hsinv, ?_, ?_⟩
  · unfold WideScheduler.finishPlan WideDagRunner.finish
    rw [check_pos hid, hv, hst]
    rfl
  · intro j hj
    obtain ⟨hne, hj⟩ := OrdSet.mem_erase.mp hj
    obtain ⟨hkj, hrj⟩ := h.running j hj
    refine ⟨(hvinv.keys j).mpr ?_, fun i hi => mem_cons_of_mem _ (hrj i hi)⟩
    obtain ⟨hd, hnot⟩ := (h.vistor.keys j).mp hkj
    exact ⟨hd, fun hmem => (mem_cons.mp hmem).elim hne hnot⟩
  · intro j
    rw [hcur, OrdMap.keys_erase, OrdSet.mem_erase, OrdSet.mem_erase, h.current j]
  · intro j hj
    rw [hcur] at hj
    obtain ⟨hne, hj⟩ := OrdSet.mem_erase.mp hj
    rw [CollectionStatus.rw, hcur, CollectionStatus.rw_erase s.status hne, h.rw j hj]

/-- A step that is allowed passes every `CHECK`. -/
theorem Inv.step (h : Inv prog s) (hwf : Wellformed prog) (hro : ReadsOrdered prog) {e : Event}
    (he : Allowed s e) : ∃ s', step prog s e = .ok s' ∧ Inv prog s' := by
  cases e with
  | tryRunPlan => exact h.tryRunPlan hwf hro
  | finishPlan id => exact h.finishPlan hwf he

theorem Reachable.inv (hwf : Wellformed prog) (hro : ReadsOrdered prog) (hs : Reachable prog s) :
    Inv prog s := by
  refine Reach.induct hs (inv_init hwf) fun t e u _ hI he hstep => ?_
  obtain ⟨u', hu', hinv⟩ := hI.step hwf hro he
  cases hstep.symm.trans hu'
  exact hinv

/-- **Conflict order.**  In a program whose write-after-read pairs are ordered by other
collections, a plan is not returned as runnable before the earlier plans it conflicts with have
finished, no two conflicting plans run at the same time, and no `CHECK` fails. -/
theorem conflict_order (hwf : Wellformed prog) (hro : ReadsOrdered prog)
    (hs : Reachable prog s) :
    (∀ a b, Before prog a b → Conflict a b → b.id ∈ s.runner.getRunnablePlans.1 →
      a.id ∈ s.finished) ∧
    (∀ a ∈ prog, ∀ b ∈ prog, a ≠ b → a.id ∈ s.runner.running → b.id ∈ s.runner.running →
      ¬ Conflict a b) ∧
    ∀ e, Allowed s e → ∃ s', step prog s e = .ok s' := by
  have h := hs.inv hwf hro
  refine ⟨fun a b hab hc hb => ?_, fun a ha b hb hne hra hrb => ?_, fun e he => ?_⟩
  · obtain ⟨new, h₁, -, hnew, -⟩ :=
      WideDagRunner.foldl_pick s.runner.dagVistor.getFront ([], s.runner.running)
    have hmem : b.id ∈ new := by
      have : s.runner.getRunnablePlans.1 = new := h₁.trans (nil_append _)
      exact this ▸ hb
    exact h.finished_of_ready hwf hro hab hc
      ((h.vistor.mem_getFront (Dag.of_ofProgram hwf.distinct)).mp ((hnew _).mp hmem).1).2
  · exact h.not_conflict hwf hro ha hb hne (h.running _ hra).1 (h.running _ hrb).1
      (h.running _ hra).2 (h.running _ hrb).2
  · obtain ⟨s', hs', -⟩ := h.step hwf hro he
    exact ⟨s', hs'⟩

end Order

/-! ### A program whose plans alternate between two collections -/

/-- Collection 1 is made, collection 2 computed from it, and 1 again from 2. -/
def alternating : List PlanNode := [⟨0, [], [1]⟩, ⟨1, [1], [2]⟩, ⟨2, [2], [1]⟩]

theorem wellformed_alternating : Wellformed alternating := ⟨by decide, by decide, by decide⟩

theorem readsOrdered_alternating : ReadsOrdered alternating := by
  intro a b hab hc
  obtain ⟨ha, hb⟩ := hab.mem
  have hfeeds : Feeds alternating ⟨1, [1], [2]⟩ ⟨2, [2], [1]⟩ :=
    ⟨.cons _ (.refl _), 2, by decide, by decide⟩
  simp only [alternating, mem_cons, not_mem_nil, or_false] at ha hb
  rcases ha with rfl | rfl | rfl <;> rcases hb with rfl | rfl | rfl
  all_goals first
    | exact .single hfeeds
    | exact absurd hc (by decide)
    | exact absurd hab (by decide)

/-- Collection 1 is made, read by one plan and written again by another. -/
def rewritten : List PlanNode := [⟨0, [], [1]⟩, ⟨1, [1], []⟩, ⟨2, [], [1]⟩]

/-- The two later plans are returned together, and `AddPlan` stops at the second. -/
theorem rewritten_unordered :
    Wellformed rewritten ∧ Before rewritten ⟨1, [1], []⟩ ⟨2, [], [1]⟩ ∧
    Conflict ⟨1, [1], []⟩ ⟨2, [], [1]⟩ ∧
    ∃ s, Reachable rewritten s ∧ 2 ∈ s.runner.getRunnablePlans.1 ∧ 1 ∉ s.finished ∧
      step rewritten s .tryRunPlan = .error (.status .addPlanRead) := by
  have hrun : ∃ s, run (step rewritten) (init rewritten) [.tryRunPlan, .finishPlan 0] = .ok s ∧
      RunOk (step rewritten) Allowed (init rewritten) [.tryRunPlan, .finishPlan 0] ∧
      2 ∈ s.runner.getRunnablePlans.1 ∧ 1 ∉ s.finished ∧
      step rewritten s .tryRunPlan = .error (.status .addPlanRead) :=
    ⟨_, rfl, by decide, by decide, by decide, rfl⟩
  obtain ⟨s, hs, hok, hret, hfin, herr⟩ := hrun
  exact ⟨⟨by decide, by decide, by decide⟩, by decide, by decide, s, reach_of_run_ok _ hok hs,
    hret, hfin, herr⟩

theorem conflict_order_alternating :
    ∃ s, Reachable alternating s ∧ s.runner.getRunnablePlans.1 = [1] ∧ s.finished = [0] ∧
      Before alternating ⟨0, [], [1]⟩ ⟨1, [1], [2]⟩ ∧ Conflict ⟨0, [], [1]⟩ ⟨1, [1], [2]⟩ ∧
      (0 : Int) ∈ s.finished := by
  have hrun : ∃ s, run (step alternating) (init alternating) [.tryRunPlan, .finishPlan 0] = .ok s ∧
      RunOk (step alternating) Allowed (init alternating) [.tryRunPlan, .finishPlan 0] ∧
      s.runner.getRunnablePlans.1 = [1] ∧ s.finished = [0] :=
    ⟨_, rfl, by decide, by decide, by decide⟩
  obtain ⟨s, hs, hok, hret, hfin⟩ := hrun
  have hreach : Reachable alternating s := reach_of_run_ok _ hok hs
  refine ⟨s, hreach, hret, hfin, by decide, by decide, ?_⟩
  exact (conflict_order wellformed_alternating readsOrdered_alternating hreach).1
    ⟨0, [], [1]⟩ ⟨1, [1], [2]⟩ (by decide) (by decide) (by rw [hret]; decide)

/-- Plan 2 reads what plan 3 writes, and waits for plan 1. -/
def lateReader : List PlanNode := [⟨0, [], [1]⟩, ⟨1, [], [2]⟩, ⟨2, [1, 2], []⟩, ⟨3, [], [1]⟩]

/-- Plan 3 is added before plan 2, and no `CHECK` keeps plan 2 out. -/
theorem lateReader_added :
    RunOk (step lateReader) Allowed (init lateReader)
      [.tryRunPlan, .finishPlan 0, .tryRunPlan, .finishPlan 1, .tryRunPlan] ∧
    Ends (step lateReader) (init lateReader)
      [.tryRunPlan, .finishPlan 0, .tryRunPlan, .finishPlan 1, .tryRunPlan] fun s =>
      s.status.getCurrentPlans = [2, 3] ∧ 1 ∈ s.status.readIds.keys ∧ 1 ∈ s.status.writeIds.keys ∧
        ¬ s.status.Exclusive := by
  decide +kernel

end WideScheduler

end Tangram
