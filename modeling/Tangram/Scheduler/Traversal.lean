import Tangram.Scheduler.DagRunner

/-!
# Traversing the graph of a program

Whatever plan of the front is finished next, the visitor fails no `CHECK`, has a
front as long as plans remain, and finishes every plan once, after the plans it
depends on.  The ids need not be in order, and may be negative; if they are
`0, 1, 2, …` the sequential runner runs the plans in this order.

    Distinct prog → any plans of the front → all of them, topologically     (dag_traversal)
-/

namespace Tangram

open StepRun List

/-- The plans before `p` in a program without repetitions. -/
theorem Before.mem_init {l₁ l₂ : List PlanNode} {a p : PlanNode} (hnd : (l₁ ++ p :: l₂).Nodup)
    (h : Before (l₁ ++ p :: l₂) a p) : a ∈ l₁ := by
  obtain ⟨-, htail, hdisj⟩ := nodup_append.mp hnd
  have hp₂ : p ∉ l₂ := (nodup_cons.mp htail).1
  have hp₁ : p ∉ l₁ := fun hp => hdisj p hp p mem_cons_self rfl
  obtain ⟨m₁, m₂, hm, h₁, h₂⟩ := sublist_append_iff.mp h
  match m₁, hm with
  | [], hm =>
    obtain rfl : [a, p] = m₂ := by simpa using hm
    -- both would come after `p`
    rcases cons_sublist_cons'.mp h₂ with h₂ | ⟨-, h₂⟩
    · exact absurd (h₂.subset (by simp)) hp₂
    · exact absurd (singleton_sublist.mp h₂) hp₂
  | [x], hm =>
    obtain ⟨rfl, -⟩ : a = x ∧ [p] = m₂ := by simpa using hm
    exact singleton_sublist.mp h₁
  | x :: y :: l, hm =>
    obtain ⟨-, rfl, -⟩ : a = x ∧ p = y ∧ [] = l ++ m₂ := by simpa using hm
    exact absurd (h₁.subset (by simp)) hp₁

namespace DagVistor

open Dag

variable {prog : List PlanNode} {d : Dag} {done : List Int} {v : DagVistor}

/-- The plan is one of `GetFront()`. -/
def AtFront (v : DagVistor) (id : Int) : Prop := id ∈ v.getFront

instance (v : DagVistor) (id : Int) : Decidable (v.AtFront id) := by
  unfold AtFront; infer_instance

/-- The first plan of the program that is left is at the front. -/
theorem Inv.getFront_ne_nil (h : Inv (ofProgram prog) done v) (hd : Distinct prog) {k : Int}
    (hk : k ∈ v.nodes.keys) : v.getFront ≠ [] := by
  have hof := of_ofProgram hd
  obtain ⟨hkey, hdone⟩ := (h.keys k).mp hk
  obtain ⟨q, hq, rfl⟩ := mem_map.mp ((hof.keys k).mp hkey)
  cases hfind : prog.find? fun p => p.id ∉ done with
  | none =>
    have := find?_eq_none.mp hfind q hq
    exact absurd hdone (by simpa using this)
  | some p =>
    obtain ⟨hp, l₁, l₂, rfl, hall⟩ := find?_eq_some_iff_append.mp hfind
    have hp : p.id ∉ done := by simpa using hp
    have hmem : p.id ∈ v.nodes.keys :=
      (h.keys _).mpr ⟨(hof.keys _).mpr (mem_map_of_mem (by simp)), hp⟩
    refine ne_nil_of_mem ((h.mem_getFront hof).mpr ⟨hmem, fun i hi => ?_⟩)
    obtain ⟨a, b, hab, rfl, hb⟩ := edge_before hd hi
    obtain rfl : b = p :=
      inj_on_of_nodup_map hd.nodup hab.mem.2 (by simp) hb
    have := hall a (Before.mem_init hd.nodup.of_map hab)
    simpa using this

/-- The plans `ids` are finished one after the other, each when it is at the front. -/
theorem Inv.finishAll (h : Inv d done v) (hof : Of prog d) (hnd : done.Nodup) (ids : List Int)
    (hok : RunOk DagVistor.finish AtFront v ids) :
    ∃ v', run DagVistor.finish v ids = .ok v' ∧ Inv d (ids.reverse ++ done) v' ∧
      (ids.reverse ++ done).Nodup ∧ (∀ id ∈ ids, id ∈ d.nodes.keys) ∧
      ∀ l₁ j l₂, ids = l₁ ++ j :: l₂ → ∀ i, Edge d i j → i ∈ l₁ ∨ i ∈ done := by
  induction ids generalizing done v with
  | nil =>
    refine ⟨v, rfl, h, hnd, by simp, fun l₁ j l₂ hl => ?_⟩
    exact absurd hl (by simp)
  | cons id ids ih =>
    obtain ⟨hfront, hrest⟩ := hok
    obtain ⟨hid, hready⟩ := (h.mem_getFront hof).mp hfront
    obtain ⟨hkey, hnot⟩ := (h.keys id).mp hid
    obtain ⟨v₁, hv₁, hinv⟩ := h.finish hof hid hready
    obtain ⟨v', hrun, hinv', hnd', hmem, htopo⟩ :=
      ih hinv (nodup_cons.mpr ⟨hnot, hnd⟩) (hrest v₁ hv₁)
    have hrev : (id :: ids).reverse ++ done = ids.reverse ++ id :: done := by simp
    rw [hrev]
    refine ⟨v', run_cons_ok.mpr ⟨v₁, hv₁, hrun⟩, hinv', hnd', ?_, fun l₁ j l₂ hl i hij => ?_⟩
    · intro k hk
      rcases mem_cons.mp hk with rfl | hk
      · exact hkey
      · exact hmem k hk
    · match l₁, hl with
      | [], hl =>
        obtain ⟨rfl, -⟩ := List.cons.inj hl
        exact .inr (hready i hij)
      | x :: l₁, hl =>
        obtain ⟨rfl, htail⟩ := List.cons.inj hl
        rcases htopo l₁ j l₂ htail i hij with hi | hi
        · exact .inl (mem_cons_of_mem _ hi)
        · rcases mem_cons.mp hi with rfl | hi
          · exact .inl mem_cons_self
          · exact .inr hi

end DagVistor

namespace SequentialDagRunner

open Dag DagVistor

variable {prog : List PlanNode}

/-- `0, 1, 2, …, k - 1`. -/
def firstIds (k : Nat) : List Int := (List.range k).map fun (i : Nat) => (i : Int)

theorem mem_firstIds {k : Nat} {i : Int} : i ∈ firstIds k ↔ 0 ≤ i ∧ i < k := by
  unfold firstIds
  rw [mem_map]
  constructor
  · rintro ⟨m, hm, rfl⟩
    have := mem_range.mp hm
    omega
  · rintro ⟨h₀, hlt⟩
    exact ⟨i.toNat, mem_range.mpr (by omega), by omega⟩

theorem firstIds_succ (k : Nat) : firstIds (k + 1) = firstIds k ++ [(k : Int)] := by
  unfold firstIds
  rw [range_succ, map_append, map_singleton]

/-- The plans that a plan depends on have smaller ids. -/
theorem edge_lt (hd : Distinct prog) (hids : prog.map PlanNode.id = firstIds prog.length)
    {i j : Int} (h : Edge (ofProgram prog) i j) : i < j := by
  obtain ⟨a, b, hab, rfl, rfl⟩ := edge_before hd h
  have hsorted : (prog.map PlanNode.id).Pairwise (· < ·) := by
    rw [hids]
    exact pairwise_map.mpr (pairwise_lt_range.imp fun h => by omega)
  have hpair := (pairwise_map.mp hsorted).sublist hab
  exact rel_of_pairwise_cons hpair mem_cons_self

/-- After the first `k` plans. -/
theorem run_firstIds (hd : Distinct prog) (hids : prog.map PlanNode.id = firstIds prog.length)
    {k : Nat} (hk : k ≤ prog.length) :
    ∃ r, run finish (ofDag (ofProgram prog)) (firstIds k) = .ok r ∧ r.planCount = k ∧
      ∃ done, Inv (ofProgram prog) done r.dagVistor ∧ ∀ i, i ∈ done ↔ i ∈ firstIds k := by
  have hof := of_ofProgram hd
  induction k with
  | zero => exact ⟨_, rfl, rfl, [], inv_ofDag hof, fun i => Iff.rfl⟩
  | succ k ih =>
    obtain ⟨r, hrun, hcount, done, hinv, hdone⟩ := ih (by omega)
    have hkey : (k : Int) ∈ r.dagVistor.nodes.keys := by
      rw [hinv.keys, hof.keys, hids, hdone, mem_firstIds, mem_firstIds]
      omega
    have hready : ∀ i, Edge (ofProgram prog) i k → i ∈ done := by
      intro i hi
      have hlt := edge_lt hd hids hi
      have hmem := (hof.keys i).mp (hof.inside i k hi).1
      rw [hids, mem_firstIds] at hmem
      rw [hdone, mem_firstIds]
      omega
    obtain ⟨v, hv, hinv'⟩ := hinv.finish hof hkey hready
    refine ⟨⟨v, r.planCount + 1⟩, ?_, by rw [hcount]; rfl, k :: done, hinv', fun i => ?_⟩
    · have hstep : finish r k = .ok ⟨v, r.planCount + 1⟩ := by
        unfold finish
        rw [check_pos hcount.symm, hv]
        rfl
      rw [firstIds_succ]
      exact run_append_ok.mpr ⟨r, hrun, run_cons_ok.mpr ⟨_, hstep, rfl⟩⟩
    · rw [firstIds_succ, mem_cons, mem_append, mem_singleton, hdone, or_comm]

end SequentialDagRunner

open Dag DagVistor SequentialDagRunner in
/-- **The traversal is complete and topological**, for every order of finishing plans of the front;
the sequential runner runs plans with the ids `0, 1, 2, …` in this order. -/
theorem dag_traversal (prog : List PlanNode) (hd : Distinct prog) :
    (∀ ids, RunOk DagVistor.finish AtFront (.ofDag (ofProgram prog)) ids →
      ∃ v, run DagVistor.finish (.ofDag (ofProgram prog)) ids = .ok v ∧
        (v.nodes.keys.elems ≠ [] → v.getFront ≠ []) ∧
        ids.Nodup ∧ (∀ k, k ∈ v.nodes.keys ↔ k ∈ prog.map PlanNode.id ∧ k ∉ ids) ∧
        (v.getFront = [] → ids.Perm (prog.map PlanNode.id)) ∧
        ∀ l₁ j l₂, ids = l₁ ++ j :: l₂ → ∀ i ∈ ((ofProgram prog).node j).in', i ∈ l₁) ∧
    (prog.map PlanNode.id = firstIds prog.length → ∀ k ≤ prog.length,
      ∃ r, run SequentialDagRunner.finish (.ofDag (ofProgram prog)) (firstIds k) = .ok r ∧
        (r.dagVistor.getNumDagNodes = 0 ↔ k = prog.length) ∧
        (k < prog.length → r.getRunnablePlans = .ok [(k : Int)])) := by
  have hof := of_ofProgram hd
  refine ⟨fun ids hok => ?_, fun hids k hk => ?_⟩
  · obtain ⟨v, hrun, hinv, hnd, hmem, htopo⟩ :=
      (inv_ofDag hof).finishAll hof nodup_nil ids hok
    rw [append_nil] at hinv hnd
    have hnd : ids.Nodup := nodup_reverse.mp hnd
    have hkeys : ∀ k, k ∈ v.nodes.keys ↔ k ∈ prog.map PlanNode.id ∧ k ∉ ids := by
      intro k
      rw [hinv.keys, hof.keys, mem_reverse]
    have hfront : v.nodes.keys.elems ≠ [] → v.getFront ≠ [] := by
      intro hne
      obtain ⟨k, hk⟩ := exists_mem_of_ne_nil _ hne
      exact hinv.getFront_ne_nil hd hk
    refine ⟨v, hrun, hfront, hnd, hkeys, fun hnil => ?_, fun l₁ j l₂ hl i hi => ?_⟩
    · rw [perm_ext_iff_of_nodup hnd hd.nodup]
      intro k
      refine ⟨fun hk => (hof.keys k).mp (hmem k hk), fun hk => ?_⟩
      by_contra hnot
      have hleft : k ∈ v.nodes.keys.elems := (hkeys k).mpr ⟨hk, hnot⟩
      exact hfront (ne_nil_of_mem hleft) hnil
    · rcases htopo l₁ j l₂ hl i hi with hi | hi
      · exact hi
      · exact absurd hi not_mem_nil
  · obtain ⟨r, hrun, hcount, done, hinv, hdone⟩ := run_firstIds hd hids hk
    have hkeys : ∀ i, i ∈ r.dagVistor.nodes.keys.elems ↔ (k : Int) ≤ i ∧ i < prog.length := by
      intro i
      rw [← OrdSet.mem_def, hinv.keys, hof.keys, hids, hdone, mem_firstIds, mem_firstIds]
      omega
    refine ⟨r, hrun, ?_, fun hlt => ?_⟩
    · rw [getNumDagNodes, length_eq_zero_iff, eq_nil_iff_forall_not_mem]
      constructor
      · intro hnil
        have := hnil k
        rw [hkeys] at this
        omega
      · intro hk i hi
        have := (hkeys i).mp hi
        omega
    · have hfront : r.planCount ∈ r.dagVistor.getFront := by
        rw [hcount, hinv.mem_getFront hof]
        refine ⟨(hkeys k).mpr (by omega), fun i hi => ?_⟩
        have hlt' := edge_lt hd hids hi
        have hmem := (hof.keys i).mp (hof.inside i k hi).1
        rw [hids, mem_firstIds] at hmem
        rw [hdone, mem_firstIds]
        omega
      unfold getRunnablePlans
      rw [check_pos hfront, hcount]
      rfl

/-- Plan 2 reads twice what it also writes. -/
def overlapping : List PlanNode := [⟨0, [], [1]⟩, ⟨1, [], [2]⟩, ⟨2, [1, 2, 1], [1]⟩]

open Dag DagVistor SequentialDagRunner in
theorem dag_traversal_overlapping :
    (∃ v, run DagVistor.finish (.ofDag (ofProgram overlapping)) [1, 0, 2] = .ok v ∧
      [1, 0, 2].Perm (overlapping.map PlanNode.id)) ∧
    ∃ r, run SequentialDagRunner.finish (.ofDag (ofProgram overlapping)) (firstIds 2) = .ok r ∧
      r.getRunnablePlans = .ok [2] := by
  have hok : RunOk DagVistor.finish AtFront (.ofDag (ofProgram overlapping)) [1, 0, 2] := by
    decide +kernel
  obtain ⟨htraverse, hsequential⟩ := dag_traversal overlapping (by decide)
  constructor
  · have hend : Ends DagVistor.finish (.ofDag (ofProgram overlapping)) [1, 0, 2] fun v =>
        v.getFront = [] := by decide +kernel
    obtain ⟨u, hu, hnil⟩ := hend
    obtain ⟨v, hrun, -, -, -, hperm, -⟩ := htraverse [1, 0, 2] hok
    cases Except.ok.inj (hu.symm.trans hrun)
    exact ⟨u, hrun, hperm hnil⟩
  · obtain ⟨r, hrun, -, hrunnable⟩ := hsequential (by decide) 2 (by decide)
    exact ⟨r, hrun, hrunnable (by decide)⟩

end Tangram
