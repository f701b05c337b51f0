import Tangram.Lib.OrdMap
import Tangram.Lib.Run

/-!
# The dependencies of the plans

`Dag` and `DagVistor` (`core/plan/dag.cpp`).  A plan is added with the collections
it reads and writes and depends on the last plan that wrote one of them; the
visitor counts, for every plan, the dependencies that have not been finished.

    Feeds prog a b → TransGen (Edge (ofProgram prog)) a.id b.id              (feeds_path)

`Visitor.Inv` says what the counts are; with it a plan is at the front exactly
when everything it depends on is finished, and then finishing it fails no `CHECK`.
-/

namespace Tangram

open StepRun Relation List

/-! ## The graph -/

/-- A collection with the plans that read it and those that write it. -/
structure Col where
  id : Int
  readQueue : List Int
  writeQueue : List Int
deriving DecidableEq, Repr

namespace Col

def getLastWrite (c : Col) : Int := c.writeQueue.getLast?.getD (-1)

theorem getLastWrite_congr {c c' : Col} (h : c.writeQueue = c'.writeQueue) :
    c.getLastWrite = c'.getLastWrite := by
  unfold getLastWrite
  rw [h]

def appendRead (c : Col) (r : Int) : Col := { c with readQueue := c.readQueue ++ [r] }

def appendWrite (c : Col) (w : Int) : Col := { c with writeQueue := c.writeQueue ++ [w] }

end Col

/-- A plan with the plans that depend on it and those it depends on. -/
structure DagNode where
  id : Int
  out : List Int
  in' : List Int
deriving DecidableEq, Repr

namespace DagNode

def addOut (n : DagNode) (i : Int) : DagNode := { n with out := n.out ++ [i] }

def addIn (n : DagNode) (i : Int) : DagNode := { n with in' := n.in' ++ [i] }

end DagNode

structure Dag where
  nodes : OrdMap Int DagNode
  cols : OrdMap Int Col

namespace Dag

def empty : Dag := ⟨.empty, .empty⟩

/-- What `GetOrCreateDagNode` points to. -/
def node (d : Dag) (id : Int) : DagNode := d.nodes.getD id ⟨id, [], []⟩

/-- What `GetOrCreateCol` points to. -/
def col (d : Dag) (id : Int) : Col := d.cols.getD id ⟨id, [], []⟩

def setNode (d : Dag) (id : Int) (n : DagNode) : Dag := { d with nodes := d.nodes.set id n }

def setCol (d : Dag) (id : Int) (c : Col) : Dag := { d with cols := d.cols.set id c }

def addEdge (d : Dag) (src dst : Int) : Dag :=
  let d := d.setNode src ((d.node src).addOut dst)
  d.setNode dst ((d.node dst).addIn src)

/-- The last plan that wrote the collection becomes a dependency, if there is one. -/
def dependOn (d : Dag) (dependencies : OrdSet Int) (c : Int) : OrdSet Int :=
  if (d.col c).getLastWrite ≠ -1 then dependencies.insert (d.col c).getLastWrite else dependencies

def addRead (id : Int) (x : Dag × OrdSet Int) (c : Int) : Dag × OrdSet Int :=
  (x.1.setCol c ((x.1.col c).appendRead id), x.1.dependOn x.2 c)

def addWrite (id : Int) (x : Dag × OrdSet Int) (c : Int) : Dag × OrdSet Int :=
  (x.1.setCol c ((x.1.col c).appendWrite id), x.1.dependOn x.2 c)

/-- `AddDagNode` up to its last loop: the queues are extended, the dependencies collected. -/
def scan (d : Dag) (id : Int) (read write : List Int) : Dag × OrdSet Int :=
  write.foldl (addWrite id) (read.foldl (addRead id) (d.setNode id (d.node id), .empty))

def addDagNode (d : Dag) (id : Int) (read write : List Int) : Dag :=
  let x := scan d id read write
  x.2.elems.foldl (fun d p => d.addEdge p id) x.1

end Dag

/-! ## The visitor -/

inductive DagCheck
  | finishIndegree | finishChild
deriving DecidableEq, Repr

structure DagVistor where
  nodes : OrdMap Int DagNode
  indegrees : OrdMap Int Int

namespace DagVistor

def ofDag (d : Dag) : DagVistor where
  nodes := d.nodes
  indegrees := d.nodes.keys.elems.foldl
    (fun m k => m.set (d.node k).id (d.node k).in'.length) .empty

/-- What `nodes_[id]` refers to. -/
def node (v : DagVistor) (id : Int) : DagNode := v.nodes.getD id ⟨id, [], []⟩

def getFront (v : DagVistor) : List Int :=
  (v.nodes.keys.elems.map fun k => (v.node k).id).filter fun i => v.indegrees.getD i 0 = 0

/-- One dependency of `child` less. -/
def release (m : OrdMap Int Int) (child : Int) : Except DagCheck (OrdMap Int Int) := do
  let m := m.set child (m.getD child 0 - 1)
  check .finishChild (0 ≤ m.getD child 0)
  return m

def finish (v : DagVistor) (id : Int) : Except DagCheck DagVistor := do
  check .finishIndegree (v.indegrees.getD id 0 = 0)
  let indegrees ← (v.node id).out.foldlM release v.indegrees
  return ⟨v.nodes.erase id, indegrees.erase id⟩

def getNumDagNodes (v : DagVistor) : Nat := v.nodes.keys.elems.length

end DagVistor

/-! ## Programs -/

/-- The arguments of one `AddDagNode`. -/
structure PlanNode where
  id : Int
  read : List Int
  write : List Int
deriving DecidableEq, Repr

def Dag.ofProgram (prog : List PlanNode) : Dag :=
  prog.foldl (fun d p => d.addDagNode p.id p.read p.write) .empty

/-- Distinct non-negative ids, no collection twice among the writes of a plan. -/
structure Wellformed (prog : List PlanNode) : Prop where
  nodup : (prog.map PlanNode.id).Nodup
  nonneg : ∀ p ∈ prog, 0 ≤ p.id
  writes : ∀ p ∈ prog, p.write.Nodup

/-- Distinct ids, which may be negative, and no collection twice among the writes of a plan. -/
structure Distinct (prog : List PlanNode) : Prop where
  nodup : (prog.map PlanNode.id).Nodup
  writes : ∀ p ∈ prog, p.write.Nodup

instance (prog : List PlanNode) : Decidable (Distinct prog) :=
  decidable_of_iff ((prog.map PlanNode.id).Nodup ∧ ∀ p ∈ prog, p.write.Nodup)
    ⟨fun h => ⟨h.1, h.2⟩, fun h => ⟨h.nodup, h.writes⟩⟩

variable {prog : List PlanNode} {a b p : PlanNode} (l : List Int)

theorem Wellformed.distinct (h : Wellformed prog) : Distinct prog :=
  ⟨h.nodup, h.writes⟩

/-- Plan `a` was added before plan `b`. -/
def Before (prog : List PlanNode) (a b : PlanNode) : Prop := [a, b].Sublist prog

instance (prog : List PlanNode) (a b : PlanNode) : Decidable (Before prog a b) := by
  unfold Before; infer_instance

/-- One of them writes a collection that the other reads or writes. -/
def Conflict (a b : PlanNode) : Prop :=
  (∃ c ∈ a.write, c ∈ b.read ∨ c ∈ b.write) ∨ ∃ c ∈ b.write, c ∈ a.read ∨ c ∈ a.write

instance (a b : PlanNode) : Decidable (Conflict a b) := by
  unfold Conflict; infer_instance

theorem Conflict.symm (h : Conflict a b) : Conflict b a := Or.symm h

/-- A later plan reads or writes what an earlier one wrote. -/
def Feeds (prog : List PlanNode) (a b : PlanNode) : Prop :=
  Before prog a b ∧ ∃ c ∈ a.write, c ∈ b.read ∨ c ∈ b.write

theorem Distinct.init (h : Distinct (prog ++ [p])) : Distinct prog := by
  have hnd := h.nodup
  rw [map_append] at hnd
  exact ⟨(nodup_append.mp hnd).1, fun q hq => h.writes q (mem_append_left _ hq)⟩

theorem Distinct.fresh (h : Distinct (prog ++ [p])) : p.id ∉ prog.map PlanNode.id := by
  have hnd := h.nodup
  rw [map_append] at hnd
  intro hmem
  exact (nodup_append.mp hnd).2.2 _ hmem _ (mem_singleton_self _) rfl

theorem Wellformed.init (h : Wellformed (prog ++ [p])) : Wellformed prog := by
  obtain ⟨hnd, hw⟩ := h.distinct.init
  exact ⟨hnd, fun q hq => h.nonneg q (mem_append_left _ hq), hw⟩

theorem before_concat {p a b : PlanNode} :
    Before (prog ++ [p]) a b ↔ Before prog a b ∨ (b = p ∧ a ∈ prog) := by
  unfold Before
  constructor
  · intro h
    obtain ⟨l₁, l₂, hl, h₁, h₂⟩ := sublist_append_iff.mp h
    match l₁, hl with
    | [], hl =>
      obtain rfl : [a, b] = l₂ := by simpa using hl
      exact absurd h₂.length_le (by simp)
    | [x], hl =>
      obtain ⟨rfl, rfl⟩ : a = x ∧ [b] = l₂ := by simpa using hl
      exact .inr ⟨by simpa using h₂, by simpa using h₁⟩
    | [x, y], hl =>
      obtain ⟨rfl, rfl, -⟩ : a = x ∧ b = y ∧ l₂ = [] := by simpa using hl
      exact .inl h₁
    | x :: y :: z :: l, hl => simp at hl
  · rintro (h | ⟨rfl, ha⟩)
    · exact h.trans (sublist_append_left _ _)
    · exact (singleton_sublist.mpr ha).append (List.Sublist.refl [b])

theorem Before.mem (h : Before prog a b) : a ∈ prog ∧ b ∈ prog :=
  ⟨h.subset (by simp), h.subset (by simp)⟩

/-! ## What the graph of a program is -/

namespace Dag

/-- `j` depends on `i`. -/
def Edge (d : Dag) (i j : Int) : Prop := i ∈ (d.node j).in'

/-- The plans of a program that write `c`, in the order they were added. -/
def writers (prog : List PlanNode) (c : Int) : List PlanNode := prog.filter fun p => c ∈ p.write

/-- What holds of the graph of a program: both ends of an edge know it, and a plan depends on
the last earlier plan that wrote a collection it reads or writes. -/
structure Of (prog : List PlanNode) (d : Dag) : Prop where
  keys : ∀ k, k ∈ d.nodes.keys ↔ k ∈ prog.map PlanNode.id
  ids : ∀ k, (d.node k).id = k
  queues : ∀ c, (d.col c).writeQueue = (writers prog c).map PlanNode.id
  balanced : ∀ i j, (d.node i).out.count j = (d.node j).in'.count i
  inside : ∀ i j, Edge d i j → i ∈ d.nodes.keys ∧ j ∈ d.nodes.keys

section Ops

variable {d : Dag} {i j k src dst : Int}

@[simp] theorem node_setNode (n : DagNode) : (d.setNode i n).node k = if k = i then n else d.node k :=
  OrdMap.getD_set _ _ _ _ _ |>.trans (by split <;> rfl)

@[simp] theorem col_setNode (n : DagNode) (c : Int) : (d.setNode i n).col c = d.col c := rfl

@[simp] theorem col_setCol (c c' : Int) (x : Col) :
    (d.setCol c x).col c' = if c' = c then x else d.col c' :=
  OrdMap.getD_set _ _ _ _ _ |>.trans (by split <;> rfl)

@[simp] theorem col_addEdge (c : Int) : (d.addEdge src dst).col c = d.col c := rfl

theorem keys_addEdge : k ∈ (d.addEdge src dst).nodes.keys ↔ k = dst ∨ k = src ∨ k ∈ d.nodes.keys := by
  simp [addEdge, setNode]

theorem id_addEdge (h : ∀ k, (d.node k).id = k) : ((d.addEdge src dst).node k).id = k := by
  simp only [addEdge, node_setNode, DagNode.addIn, DagNode.addOut]
  split_ifs <;> simp_all

theorem in_addEdge : ((d.addEdge src dst).node k).in' =
    if k = dst then (d.node k).in' ++ [src] else (d.node k).in' := by
  simp only [addEdge, node_setNode, DagNode.addIn, DagNode.addOut]
  split_ifs <;> simp_all

theorem out_addEdge : ((d.addEdge src dst).node k).out =
    if k = src then (d.node k).out ++ [dst] else (d.node k).out := by
  simp only [addEdge, node_setNode, DagNode.addIn, DagNode.addOut]
  split_ifs <;> simp_all

/-- The edges to one node, one after the other. -/
theorem foldl_addEdge (d : Dag) (dst : Int) :
    (∀ k, k ∈ (l.foldl (fun d p => d.addEdge p dst) d).nodes.keys ↔
      k ∈ d.nodes.keys ∨ k ∈ l ∨ (l ≠ [] ∧ k = dst)) ∧
    (∀ c, (l.foldl (fun d p => d.addEdge p dst) d).col c = d.col c) ∧
    (∀ k, ((l.foldl (fun d p => d.addEdge p dst) d).node k).in' =
      if k = dst then (d.node k).in' ++ l else (d.node k).in') ∧
    (∀ k, ((l.foldl (fun d p => d.addEdge p dst) d).node k).out =
      (d.node k).out ++ List.replicate (l.count k) dst) ∧
    ((∀ k, (d.node k).id = k) → ∀ k, ((l.foldl (fun d p => d.addEdge p dst) d).node k).id = k) := by
  induction l generalizing d with
  | nil => simp
  | cons p l ih =>
    obtain ⟨hkeys, hcol, hin, hout, hid⟩ := ih (d.addEdge p dst)
    simp only [foldl_cons]
    refine ⟨fun k => ?_, fun c => ?_, fun k => ?_, fun k => ?_, fun h => ?_⟩
    · rw [hkeys, keys_addEdge]
      simp only [mem_cons, ne_eq, reduceCtorEq, not_false_eq_true, true_and]
      tauto
    · rw [hcol, col_addEdge]
    · rw [hin, in_addEdge]
      split <;> simp
    · rw [hout, out_addEdge, count_cons]
      by_cases hk : k = p
      · subst hk
        simp [replicate_succ]
      · simp [hk, Ne.symm hk]
    · exact hid fun k => id_addEdge h

theorem mem_dependOn {deps : OrdSet Int} {c p : Int} :
    p ∈ d.dependOn deps c ↔ p ∈ deps ∨ p ≠ -1 ∧ (d.col c).getLastWrite = p := by
  unfold dependOn
  split
  · next h =>
    rw [OrdSet.mem_insert]
    constructor
    · rintro (rfl | hp)
      · exact .inr ⟨h, rfl⟩
      · exact .inl hp
    · rintro (hp | ⟨-, rfl⟩)
      · exact .inr hp
      · exact .inl rfl
  · next h =>
    constructor
    · exact .inl
    · rintro (hp | ⟨hp, rfl⟩)
      · exact hp
      · exact absurd hp h

/-- What the loops over the collections do: the nodes stay, the queues of what is written are
extended, and the last writers are collected. -/
theorem foldl_addRead (id : Int) (l : List Int) (x : Dag × OrdSet Int) :
    (l.foldl (addRead id) x).1.nodes = x.1.nodes ∧
    (∀ c, ((l.foldl (addRead id) x).1.col c).writeQueue = (x.1.col c).writeQueue) ∧
    ∀ p, p ∈ (l.foldl (addRead id) x).2 ↔
      p ∈ x.2 ∨ p ≠ -1 ∧ ∃ c ∈ l, (x.1.col c).getLastWrite = p := by
  induction l generalizing x with
  | nil => simp
  | cons a l ih =>
    obtain ⟨hn, hq, hm⟩ := ih (addRead id x a)
    have hqueue : ∀ c, ((addRead id x a).1.col c).writeQueue = (x.1.col c).writeQueue := by
      intro c
      simp only [addRead, col_setCol, Col.appendRead]
      split
      · next h => rw [h]
      · rfl
    have hlast : ∀ c, ((addRead id x a).1.col c).getLastWrite = (x.1.col c).getLastWrite := by
      exact fun c => Col.getLastWrite_congr (hqueue c)
    simp only [foldl_cons]
    refine ⟨hn, fun c => (hq c).trans (hqueue c), fun p => ?_⟩
    rw [hm]
    simp only [hlast, mem_cons, exists_eq_or_imp]
    simp only [addRead, mem_dependOn]
    tauto

theorem foldl_addWrite (id : Int) (l : List Int) (x : Dag × OrdSet Int) (hnd : l.Nodup) :
    (l.foldl (addWrite id) x).1.nodes = x.1.nodes ∧
    (∀ c, ((l.foldl (addWrite id) x).1.col c).writeQueue =
      (x.1.col c).writeQueue ++ if c ∈ l then [id] else []) ∧
    ∀ p, p ∈ (l.foldl (addWrite id) x).2 ↔
      p ∈ x.2 ∨ p ≠ -1 ∧ ∃ c ∈ l, (x.1.col c).getLastWrite = p := by
  induction l generalizing x with
  | nil => simp
  | cons a l ih =>
    obtain ⟨ha, hnd⟩ := nodup_cons.mp hnd
    obtain ⟨hn, hq, hm⟩ := ih (addWrite id x a) hnd
    have hqueue : ∀ c, c ≠ a → ((addWrite id x a).1.col c).writeQueue = (x.1.col c).writeQueue := by
      intro c hc
      simp [addWrite, hc]
    have hne : ∀ c ∈ l, c ≠ a := by
      rintro c hc rfl
      exact ha hc
    have hlast : ∀ c ∈ l, ((addWrite id x a).1.col c).getLastWrite = (x.1.col c).getLastWrite := by
      exact fun c hc => Col.getLastWrite_congr (hqueue c (hne c hc))
    simp only [foldl_cons]
    refine ⟨hn, fun c => ?_, fun p => ?_⟩
    · rw [hq]
      by_cases hc : c = a
      · subst hc
        simp [addWrite, Col.appendWrite, ha]
      · rw [hqueue c hc]
        simp [hc]
    · have hex : (∃ c ∈ l, ((addWrite id x a).1.col c).getLastWrite = p) ↔
          ∃ c ∈ l, (x.1.col c).getLastWrite = p :=
        exists_congr fun c => and_congr_right fun hc => by rw [hlast c hc]
      rw [hm, hex]
      simp only [mem_cons, exists_eq_or_imp]
      simp only [addWrite, mem_dependOn]
      tauto

end Ops

/-! ### One plan more -/

section Add

variable {prog : List PlanNode} {d : Dag} {p : PlanNode}

/-- The last plan of the program that writes `c`. -/
def lastWriter (prog : List PlanNode) (c : Int) : Option PlanNode := (writers prog c).getLast?

theorem lastWriter_mem {c : Int} {w : PlanNode} (h : lastWriter prog c = some w) :
    w ∈ prog ∧ c ∈ w.write := by
  have := mem_of_getLast? h
  simpa [writers] using this

theorem Of.getLastWrite (h : Of prog d) (hnn : ∀ q ∈ prog, 0 ≤ q.id) (c i : Int) :
    (i ≠ -1 ∧ (d.col c).getLastWrite = i) ↔ ∃ w, lastWriter prog c = some w ∧ w.id = i := by
  rw [Col.getLastWrite, h.queues c, getLast?_map, lastWriter]
  cases hw : (writers prog c).getLast? with
  | none => simp [eq_comm]
  | some w =>
    have hid : w.id ≠ -1 := by
      have := hnn w (lastWriter_mem hw).1
      omega
    constructor
    · rintro ⟨-, hi⟩
      exact ⟨w, rfl, hi⟩
    · rintro ⟨w', hw', rfl⟩
      cases hw'
      exact ⟨hid, rfl⟩

/-- The dependencies that `AddDagNode` collects. -/
theorem mem_scan (hnd : p.write.Nodup) (i : Int) :
    i ∈ (scan d p.id p.read p.write).2 ↔
      ∃ c, (c ∈ p.read ∨ c ∈ p.write) ∧ i ≠ -1 ∧ (d.col c).getLastWrite = i := by
  obtain ⟨-, hqr, hmr⟩ := foldl_addRead p.id p.read (d.setNode p.id (d.node p.id), .empty)
  obtain ⟨-, -, hmw⟩ := foldl_addWrite p.id p.write
    (p.read.foldl (addRead p.id) (d.setNode p.id (d.node p.id), .empty)) hnd
  unfold scan
  rw [hmw, hmr]
  simp only [fun c => Col.getLastWrite_congr (hqr c), col_setNode, OrdSet.notMem_empty, false_or]
  constructor
  · rintro (⟨hi, c, hc, hl⟩ | ⟨hi, c, hc, hl⟩)
    · exact ⟨c, .inl hc, hi, hl⟩
    · exact ⟨c, .inr hc, hi, hl⟩
  · rintro ⟨c, hc | hc, hi, hl⟩
    · exact .inl ⟨hi, c, hc, hl⟩
    · exact .inr ⟨hi, c, hc, hl⟩

/-- Whatever the ids are, a dependency is a plan of the program. -/
theorem Of.mem_of_getLastWrite (h : Of prog d) {c i : Int} (hi : i ≠ -1)
    (hl : (d.col c).getLastWrite = i) : i ∈ prog.map PlanNode.id := by
  rw [Col.getLastWrite, h.queues c] at hl
  cases hlast : ((writers prog c).map PlanNode.id).getLast? with
  | none =>
    rw [hlast] at hl
    exact absurd hl.symm hi
  | some w =>
    rw [hlast] at hl
    obtain rfl : w = i := hl
    obtain ⟨q, hq, rfl⟩ := mem_map.mp (mem_of_getLast? hlast)
    exact mem_map_of_mem (mem_filter.mp hq).1

theorem Of.node_fresh (h : Of prog d) (hp : p.id ∉ prog.map PlanNode.id) :
    d.node p.id = ⟨p.id, [], []⟩ :=
  OrdMap.getD_of_notMem (mt (h.keys p.id).mp hp) _

/-- What `scan` leaves: the new node, and the queues with the new writer. -/
theorem Of.scan_fst (h : Of prog d) (hnd : p.write.Nodup) :
    (∀ k, k ∈ (scan d p.id p.read p.write).1.nodes.keys ↔ k = p.id ∨ k ∈ d.nodes.keys) ∧
    (∀ k, (scan d p.id p.read p.write).1.node k = d.node k) ∧
    ∀ c, ((scan d p.id p.read p.write).1.col c).writeQueue =
      (writers (prog ++ [p]) c).map PlanNode.id := by
  obtain ⟨hnr, hqr, -⟩ := foldl_addRead p.id p.read (d.setNode p.id (d.node p.id), .empty)
  obtain ⟨hnw, hqw, -⟩ := foldl_addWrite p.id p.write
    (p.read.foldl (addRead p.id) (d.setNode p.id (d.node p.id), .empty)) hnd
  have hnodes : (scan d p.id p.read p.write).1.nodes = (d.setNode p.id (d.node p.id)).nodes :=
    hnw.trans hnr
  refine ⟨fun k => ?_, fun k => ?_, fun c => ?_⟩
  · rw [hnodes]
    exact OrdSet.mem_insert
  · have hk : (scan d p.id p.read p.write).1.node k = (d.setNode p.id (d.node p.id)).node k :=
      congrArg (fun m => m.getD k ⟨k, [], []⟩) hnodes
    rw [hk, node_setNode]
    split
    · next hk => rw [hk]
    · rfl
  · refine (hqw c).trans ?_
    rw [hqr, col_setNode, h.queues c, writers, writers, filter_append, map_append]
    congr 1
    by_cases hc : c ∈ p.write <;> simp [hc]

/-- The edges of the extended graph are the old ones and those to the new plan. -/
theorem Of.edge_cases (h : Of prog d) (hnd : p.write.Nodup) (i j : Int) :
    Edge (d.addDagNode p.id p.read p.write) i j ↔ Edge d i j ∨
      (j = p.id ∧ ∃ c, (c ∈ p.read ∨ c ∈ p.write) ∧ i ≠ -1 ∧ (d.col c).getLastWrite = i) := by
  obtain ⟨-, -, hin, -, -⟩ := foldl_addEdge (scan d p.id p.read p.write).2.elems
    (scan d p.id p.read p.write).1 p.id
  obtain ⟨-, hnode, -⟩ := h.scan_fst hnd
  unfold Edge addDagNode
  rw [hin, hnode]
  by_cases hj : j = p.id
  · rw [if_pos hj, mem_append, ← OrdSet.mem_def, mem_scan hnd i]
    simp [hj]
  · simp [hj]

theorem Of.edge_addDagNode (h : Of prog d) (hwf : Wellformed (prog ++ [p])) (i j : Int) :
    Edge (d.addDagNode p.id p.read p.write) i j ↔ Edge d i j ∨
      (j = p.id ∧ ∃ c, (c ∈ p.read ∨ c ∈ p.write) ∧ ∃ w, lastWriter prog c = some w ∧ w.id = i) := by
  have hnn : ∀ q ∈ prog, 0 ≤ q.id := fun q hq => hwf.nonneg q (mem_append_left _ hq)
  rw [h.edge_cases (hwf.writes p (by simp))]
  simp only [h.getLastWrite hnn]

/-- **One plan more.** -/
theorem Of.addDagNode (h : Of prog d) (hwf : Distinct (prog ++ [p])) :
    Of (prog ++ [p]) (d.addDagNode p.id p.read p.write) := by
  have hnd : p.write.Nodup := hwf.writes p (by simp)
  have hfresh := h.node_fresh hwf.fresh
  obtain ⟨hkeys, hcol, hin, hout, hid⟩ := foldl_addEdge (scan d p.id p.read p.write).2.elems
    (scan d p.id p.read p.write).1 p.id
  obtain ⟨hsk, hsn, hsq⟩ := h.scan_fst hnd
  -- a dependency is a plan of the program
  have hdep : ∀ i, i ∈ (scan d p.id p.read p.write).2.elems → i ∈ d.nodes.keys := by
    intro i hi
    obtain ⟨c, -, hi, hl⟩ := (mem_scan hnd i).mp hi
    exact (h.keys _).mpr (h.mem_of_getLastWrite hi hl)
  have hnew : ∀ k, k ∈ (d.addDagNode p.id p.read p.write).nodes.keys ↔
      k = p.id ∨ k ∈ d.nodes.keys := by
    intro k
    refine (hkeys k).trans ?_
    rw [hsk]
    constructor
    · rintro (hk | hk | ⟨-, hk⟩)
      · exact hk
      · exact .inr (hdep k hk)
      · exact .inl hk
    · exact .inl
  constructor
  · intro k
    rw [hnew, h.keys k]
    simp [or_comm]
  · exact fun k => hid (fun k => by rw [hsn, h.ids]) k
  · exact fun c => (congrArg Col.writeQueue (hcol c)).trans (hsq c)
  · intro i j
    refine (congrArg _ (hout i)).trans (Eq.trans ?_ (congrArg _ (hin j)).symm)
    rw [hsn, hsn, count_append, count_replicate, h.balanced i j]
    by_cases hj : j = p.id
    · subst hj
      simp [hfresh]
    · simp [hj, Ne.symm hj]
  · intro i j hij
    rw [hnew, hnew]
    rcases (h.edge_cases hnd i j).mp hij with hij | ⟨rfl, c, -, hi, hl⟩
    · exact ⟨.inr (h.inside i j hij).1, .inr (h.inside i j hij).2⟩
    · exact ⟨.inr ((h.keys _).mpr (h.mem_of_getLastWrite hi hl)), .inl rfl⟩

theorem of_nil : Of [] Dag.empty := by
  constructor <;> simp [Dag.empty, node, col, writers, Edge]

theorem ofProgram_concat (prog : List PlanNode) (p : PlanNode) :
    ofProgram (prog ++ [p]) = (ofProgram prog).addDagNode p.id p.read p.write := by
  simp [ofProgram]

theorem of_ofProgram (hwf : Distinct prog) : Of prog (ofProgram prog) := by
  induction prog using List.reverseRecOn with
  | nil => exact of_nil
  | append_singleton prog p ih =>
    rw [ofProgram_concat]
    exact (ih hwf.init).addDagNode hwf

/-- A plan depends on plans that were added before it. -/
theorem edge_before (hwf : Distinct prog) {i j : Int} (h : Edge (ofProgram prog) i j) :
    ∃ a b, Before prog a b ∧ a.id = i ∧ b.id = j := by
  induction prog using List.reverseRecOn generalizing i j with
  | nil => exact absurd h (by simp [Edge, ofProgram, Dag.empty, node])
  | append_singleton prog p ih =>
    have hof := of_ofProgram hwf.init
    rw [ofProgram_concat] at h
    rcases (hof.edge_cases (hwf.writes p (by simp)) i j).mp h with h | ⟨rfl, c, -, hi, hl⟩
    · obtain ⟨a, b, hab, ha, hb⟩ := ih hwf.init h
      exact ⟨a, b, before_concat.mpr (.inl hab), ha, hb⟩
    · obtain ⟨a, ha, rfl⟩ := mem_map.mp (hof.mem_of_getLastWrite hi hl)
      exact ⟨a, p, before_concat.mpr (.inr ⟨rfl, ha⟩), rfl, rfl⟩

/-- A plan that writes `c` is the last one that does, or was added before it. -/
theorem eq_or_before_lastWriter {a w : PlanNode} {c : Int} (ha : a ∈ prog) (hc : c ∈ a.write)
    (hw : lastWriter prog c = some w) : a = w ∨ Before prog a w := by
  obtain ⟨l, hl⟩ := getLast?_eq_some_iff.mp hw
  have hmem : a ∈ writers prog c := by simp [writers, ha, hc]
  rw [hl, mem_append, mem_singleton] at hmem
  rcases hmem with hmem | rfl
  · refine .inr (List.Sublist.trans ?_ (filter_sublist (p := fun p => c ∈ p.write)))
    rw [← writers, hl]
    exact (singleton_sublist.mpr hmem).append (List.Sublist.refl [w])
  · exact .inl rfl

/-- **What one plan wrote and a later one reads or writes orders them**, through the plans that
wrote it in between. -/
theorem feeds_path (hwf : Wellformed prog) (h : Feeds prog a b) :
    TransGen (Edge (ofProgram prog)) a.id b.id := by
  induction prog using List.reverseRecOn generalizing a b with
  | nil => simp [Feeds, Before] at h
  | append_singleton prog p ih =>
    have hof := of_ofProgram hwf.init.distinct
    -- the old edges stay
    have hold : ∀ i j, TransGen (Edge (ofProgram prog)) i j →
        TransGen (Edge (ofProgram (prog ++ [p]))) i j := by
      refine TransGen.mono (r := Edge (ofProgram prog)) fun i j hij => ?_
      rw [ofProgram_concat]
      exact (hof.edge_addDagNode hwf i j).mpr (.inl hij)
    obtain ⟨hbefore, c, hca, hcb⟩ := h
    rcases before_concat.mp hbefore with hb | ⟨rfl, ha⟩
    · exact hold _ _ (ih hwf.init ⟨hb, c, hca, hcb⟩)
    · -- the new plan depends on the last writer of `c`
      obtain ⟨w, hw⟩ : ∃ w, lastWriter prog c = some w := by
        have hmem : a ∈ writers prog c := by simp [writers, ha, hca]
        exact ⟨_, getLast?_eq_some_getLast (ne_nil_of_mem hmem)⟩
      have hedge : Edge (ofProgram (prog ++ [b])) w.id b.id := by
        rw [ofProgram_concat]
        exact (hof.edge_addDagNode hwf _ _).mpr (.inr ⟨rfl, c, hcb, w, hw, rfl⟩)
      rcases eq_or_before_lastWriter ha hca hw with rfl | hbw
      · exact .single hedge
      · exact .tail (hold _ _ (ih hwf.init
          ⟨hbw, c, hca, .inr (lastWriter_mem hw).2⟩)) hedge

end Add

end Dag

/-! ## What the visitor counts -/

namespace DagVistor

open Dag

/-- The visitor of the graph `d` after the plans `done` were finished: it has the others, counts
for each its dependencies that are not among `done`, and `done` lacks no dependency. -/
structure Inv (d : Dag) (done : List Int) (v : DagVistor) : Prop where
  keys : ∀ k, k ∈ v.nodes.keys ↔ k ∈ d.nodes.keys ∧ k ∉ done
  node : ∀ k ∈ v.nodes.keys, v.node k = d.node k
  indegree : ∀ k ∈ v.nodes.keys, v.indegrees.getD k 0 = (d.node k).in'.countP (· ∉ done)
  closed : ∀ i j, Edge d i j → j ∈ done → i ∈ done

variable {prog : List PlanNode} {d : Dag} {done : List Int} {v : DagVistor} {id : Int}

theorem inv_ofDag (h : Of prog d) : Inv d [] (ofDag d) := by
  have hfold : ∀ (l : List Int) (m : OrdMap Int Int), l.Nodup → ∀ k,
      (l.foldl (fun m k => m.set (d.node k).id (d.node k).in'.length) m).getD k 0 =
        if k ∈ l then ((d.node k).in'.length : Int) else m.getD k 0 := by
    intro l
    induction l with
    | nil => simp
    | cons a l ih =>
      intro m hnd k
      obtain ⟨ha, hnd⟩ := nodup_cons.mp hnd
      rw [foldl_cons, ih _ hnd, h.ids a, OrdMap.getD_set]
      by_cases hk : k = a
      · subst hk
        simp [ha]
      · simp [hk]
  constructor
  · exact fun k => by simp [ofDag]
  · exact fun k _ => rfl
  · intro k hk
    refine (hfold _ _ d.nodes.keys.nodup k).trans ?_
    have hmem : k ∈ d.nodes.keys.elems := hk
    rw [if_pos hmem]
    simp
  · exact fun i j _ hj => absurd hj not_mem_nil

theorem Inv.mem_getFront (h : Inv d done v) (hof : Of prog d) :
    id ∈ v.getFront ↔ id ∈ v.nodes.keys ∧ ∀ i, Edge d i id → i ∈ done := by
  have hids : v.nodes.keys.elems.map (fun k => (v.node k).id) = v.nodes.keys.elems := by
    refine (map_congr_left fun k hk => ?_).trans (map_id _)
    rw [h.node k hk, hof.ids, id_eq]
  rw [getFront, hids, mem_filter, ← OrdSet.mem_def]
  refine and_congr_right fun hid => ?_
  rw [decide_eq_true_iff, h.indegree id hid]
  simp [Edge, countP_eq_zero]

theorem countP_notMem_cons (hid : id ∉ done) :
    l.countP (· ∉ done) = l.countP (· ∉ id :: done) + l.count id := by
  induction l with
  | nil => rfl
  | cons a l ih =>
    rw [countP_cons, countP_cons, count_cons, ih]
    by_cases ha : a = id
    · subst ha
      simp [hid]
      omega
    · simp [ha]
      omega

/-- The children are released one after the other, where their counters allow it. -/
theorem foldlM_release (m : OrdMap Int Int) (h : ∀ k ∈ l, (l.count k : Int) ≤ m.getD k 0) :
    ∃ m', l.foldlM release m = .ok m' ∧ ∀ k, m'.getD k 0 = m.getD k 0 - l.count k := by
  induction l generalizing m with
  | nil => exact ⟨m, rfl, by simp⟩
  | cons a l ih =>
    have ha := h a mem_cons_self
    rw [count_cons_self] at ha
    push_cast at ha
    have hstep : release m a = .ok (m.set a (m.getD a 0 - 1)) := by
      have hge : 0 ≤ (m.set a (m.getD a 0 - 1)).getD a 0 := by
        rw [OrdMap.getD_set, if_pos rfl]
        omega
      show (check _ _ >>= fun _ => _) = _
      rw [check_pos hge]
      rfl
    rw [foldlM_cons, hstep]
    obtain ⟨m', hm', hval⟩ := ih (m.set a (m.getD a 0 - 1)) fun k hk => by
      have := h k (mem_cons_of_mem _ hk)
      rw [count_cons] at this
      rw [OrdMap.getD_set]
      split
      · next hka =>
        subst hka
        omega
      · next hka =>
        simp only [beq_iff_eq, Ne.symm hka, if_false] at this
        omega
    refine ⟨m', hm', fun k => ?_⟩
    rw [hval, OrdMap.getD_set, count_cons]
    by_cases hka : k = a
    · subst hka
      simp
      omega
    · simp [hka, Ne.symm hka]

/-- **A plan at the front can be finished.** -/
theorem Inv.finish (h : Inv d done v) (hof : Of prog d) (hid : id ∈ v.nodes.keys)
    (hready : ∀ i, Edge d i id → i ∈ done) :
    ∃ v', v.finish id = .ok v' ∧ Inv d (id :: done) v' := by
  have hnot : id ∉ done := ((h.keys id).mp hid).2
  -- the plans that depend on `id` are still there
  have hchild : ∀ k ∈ (v.node id).out, k ∈ v.nodes.keys := by
    intro k hk
    have hedge : Edge d id k := by
      rw [h.node id hid] at hk
      exact count_pos_iff.mp (hof.balanced id k ▸ count_pos_iff.mpr hk)
    exact (h.keys k).mpr ⟨(hof.inside id k hedge).2, fun hdone => hnot (h.closed id k hedge hdone)⟩
  have hcount : ∀ k ∈ v.nodes.keys, ((v.node id).out.count k : Int) +
      (d.node k).in'.countP (· ∉ id :: done) = v.indegrees.getD k 0 := by
    intro k hk
    rw [h.indegree k hk, countP_notMem_cons _ hnot, h.node id hid, hof.balanced id k]
    push_cast
    omega
  obtain ⟨m, hm, hval⟩ := foldlM_release (v.node id).out v.indegrees fun k hk => by
    have := hcount k (hchild k hk)
    omega
  have hzero : v.indegrees.getD id 0 = 0 := by
    rw [h.indegree id hid]
    simpa [Edge, countP_eq_zero] using hready
  refine ⟨⟨v.nodes.erase id, m.erase id⟩, ?_, ?_⟩
  · unfold DagVistor.finish
    rw [check, if_pos hzero]
    show (List.foldlM release v.indegrees _ >>= _) = _
    rw [hm]
    rfl
  · have hkept : ∀ k, k ∈ v.nodes.keys.erase id → k ≠ id ∧ k ∈ v.nodes.keys :=
      fun k hk => OrdSet.mem_erase.mp hk
    constructor
    · intro k
      rw [OrdMap.keys_erase, OrdSet.mem_erase, h.keys k, mem_cons, not_or]
      tauto
    · intro k hk
      obtain ⟨hne, hmem⟩ := hkept k hk
      refine Eq.trans ?_ (h.node k hmem)
      show (v.nodes.erase id).getD k _ = v.nodes.getD k _
      rw [OrdMap.getD_erase, if_neg hne]
    · intro k hk
      obtain ⟨hne, hmem⟩ := hkept k hk
      have := hcount k hmem
      rw [OrdMap.getD_erase, if_neg hne, hval]
      omega
    · intro i j hij hj
      rcases mem_cons.mp hj with rfl | hj
      · exact mem_cons_of_mem _ (hready i hij)
      · exact mem_cons_of_mem _ (h.closed i j hij hj)

/-- What a finished plan depends on, however indirectly, is finished. -/
theorem Inv.closed_path (h : Inv d done v) {i j : Int} (hij : TransGen (Edge d) i j)
    (hj : ∀ k, Edge d k j → k ∈ done) : i ∈ done := by
  induction hij using TransGen.head_induction_on with
  | single hij => exact hj _ hij
  | head hab _ ih => exact h.closed _ _ hab ih

end DagVistor

end Tangram
