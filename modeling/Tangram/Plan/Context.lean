import Tangram.Base.Serialization

/-!
# Programs as they are built

`Context` (`core/plan/context.hpp`) makes the plans of a program and enters each into
the dag; `GetSpec` of a plan makes the wrapper that the worker serialises and the
scheduler reads.  What a plan reads and writes is said three times: to
`AddDagNode`, by `GetReadWrite` of the spec, and by the class that the tag of the
wrapper selects when it is read.

The three agree but for two kinds of plans (`Context.agrees_iff`): `write` gives its
collection to the dag as a read and its spec has it as a write, and the spec of
`loadcheckpoint` is a `CheckpointSpec` until it is read.

Calls that only make other calls (`distribute_by_key`, `foreach`, `count`,
`sort_each_partition`) are left out, and so are the functions a plan registers.
-/

namespace Tangram

open StepRun List
open SpecWrapper (Wire Spec)

/-! ## Plans -/

/-- The bytes of a `std::string`. -/
def text (s : String) : List UInt8 := s.toUTF8.data.toList

/-- `Checkpoint::Type`. -/
inductive CheckpointType
  | checkpoint | loadcheckpoint
deriving DecidableEq, Repr

/-- What the user sets of a map-update plan, with the defaults of the source. -/
structure MapJoinOptions where
  numIter : Int := 1
  staleness : Int := 0
  checkpointPath : List UInt8 := []
  checkpointInterval : Int := 0
  combineTimeout : Int := -1
  description : List UInt8 := []
  name : List UInt8 := []
deriving DecidableEq, Repr

/-- The subclasses of `PlanBase`; `RangeDistribute` is a `Distribute`, `MapJoin` a `MapPartJoin`. -/
inductive PlanBase
  | distribute (planId collectionId numParts : Int) (data : SArrayBinStream) (name : List UInt8)
  | load (planId collectionId : Int) (url : List UInt8) (isLoadMeta isWholeFile : Bool)
      (name : List UInt8)
  | write (planId collectionId : Int) (url name : List UInt8)
  | checkpoint (planId cid : Int) (url : List UInt8) (type : CheckpointType) (name : List UInt8)
  | mapPartJoin (planId mapCollection updateCollection : Int) (opts : MapJoinOptions)
  | mapPartWithJoin (planId mapCollection withCollection updateCollection : Int)
      (opts : MapJoinOptions)

namespace PlanBase

def planId : PlanBase → Int
  | distribute id .. => id
  | load id .. => id
  | write id .. => id
  | checkpoint id .. => id
  | mapPartJoin id .. => id
  | mapPartWithJoin id .. => id

def mapJoinSpec (mapCollection updateCollection : Int) (o : MapJoinOptions) :
    MapJoinSpec (List UInt8) :=
  ⟨mapCollection, updateCollection, o.combineTimeout, o.numIter, o.staleness, o.checkpointInterval,
    o.checkpointPath, o.description⟩

/-- `GetSpec`; both types of a `Checkpoint` have a `CheckpointSpec`. -/
def getSpec : PlanBase → Wire
  | distribute id c n data name => ⟨.kDistribute, id, name, .distribute ⟨c, n, data⟩⟩
  | load id c url isLoadMeta isWholeFile name =>
    ⟨.kLoad, id, name, .load ⟨c, url, isLoadMeta, isWholeFile⟩⟩
  | write id c url name => ⟨.kWrite, id, name, .write ⟨c, url⟩⟩
  | checkpoint id c url .checkpoint name => ⟨.kCheckpoint, id, name, .checkpoint ⟨c, url⟩⟩
  | checkpoint id c url .loadcheckpoint name => ⟨.kLoadCheckpoint, id, name, .checkpoint ⟨c, url⟩⟩
  | mapPartJoin id c₁ c₂ o => ⟨.kMapJoin, id, o.name, .mapJoin (mapJoinSpec c₁ c₂ o)⟩
  | mapPartWithJoin id c₁ c₂ c₃ o =>
    ⟨.kMapWithJoin, id, o.name, .mapWithJoin { mapJoinSpec c₁ c₃ o with withCollectionId := c₂ }⟩

end PlanBase

/-! ## Calls -/

/-- `collections_` and `plans_` number what they make from 0; `nodes` are the calls of
`AddDagNode`. -/
structure Context where
  collections : Nat
  plans : List PlanBase
  nodes : List PlanNode

namespace Context

def empty : Context := ⟨0, [], []⟩

def dag (c : Context) : Dag := .ofProgram c.nodes

/-- `plans_.make`, and the node of the plan. -/
def makePlan (c : Context) (plan : Int → PlanBase) (read write : List Int) : Context :=
  { c with
    plans := c.plans ++ [plan c.plans.length]
    nodes := c.nodes ++ [⟨c.plans.length, read, write⟩] }

/-- A plan that makes a new collection. -/
def makeCollection (c : Context) (plan : Int → Int → PlanBase) : Context :=
  makePlan { c with collections := c.collections + 1 } (plan · c.collections) [] [c.collections]

/-- An empty vector, which is its size. -/
def noData : SArrayBinStream := SArrayBinStream.empty.addBin (TriviallyCopyable.sizeT.toBytes 0)

/-- The builders; collections are given by their ids. -/
inductive Call
  | distribute (data : SArrayBinStream) (numParts : Int) (name : List UInt8)
  | load (url name : List UInt8)
  | loadWholefiles (url name : List UInt8)
  | loadBlockMeta (url name : List UInt8)
  | loadWholefilesMeta (url name : List UInt8)
  | write (c : Int) (url name : List UInt8)
  | checkpoint (c : Int) (url name : List UInt8)
  | loadcheckpoint (c : Int) (url name : List UInt8)
  | placeholder (numParts : Int) (name : List UInt8)
  | rangePlaceholder (numRanges : Int) (name : List UInt8)
  | placeholderRanges (numRanges : Int) (name : List UInt8)
  | mapupdate (c₁ c₂ : Int) (opts : MapJoinOptions)
  | mappartupdate (c₁ c₂ : Int) (opts : MapJoinOptions)
  | mappartwithupdate (c₁ c₂ c₃ : Int) (opts : MapJoinOptions)

def call (c : Context) : Call → Context
  | .distribute data n name =>
    c.makeCollection (.distribute · · n data (name ++ text "::distribute"))
  | .load url name => c.makeCollection (.load · · url false false (name ++ text "::load"))
  | .loadWholefiles url name =>
    c.makeCollection (.load · · url false true (name ++ text "::load_wholefiles"))
  | .loadBlockMeta url name =>
    c.makeCollection (.load · · url true false (name ++ text "::load_block_meta"))
  | .loadWholefilesMeta url name =>
    c.makeCollection (.load · · url true true (name ++ text "::load_wholefiles_meta"))
  | .write c₁ url name => c.makePlan (.write · c₁ url (name ++ text "::write")) [c₁] []
  | .checkpoint c₁ url name =>
    c.makePlan (.checkpoint · c₁ url .checkpoint (name ++ text "::checkpoint")) [c₁] []
  | .loadcheckpoint c₁ url name =>
    c.makePlan (.checkpoint · c₁ url .loadcheckpoint (name ++ text "::loadcheckpoint")) [] [c₁]
  | .placeholder n name =>
    c.makeCollection (.distribute · · n noData (name ++ text "::placeholder"))
  | .rangePlaceholder n name =>
    c.makeCollection (.distribute · · n noData (name ++ text "::range_placeholder"))
  | .placeholderRanges n name =>
    c.makeCollection (.distribute · · n noData (name ++ text "placeholder range"))
  | .mapupdate c₁ c₂ o => c.makePlan (.mapPartJoin · c₁ c₂ o) [c₁] [c₂]
  | .mappartupdate c₁ c₂ o => c.makePlan (.mapPartJoin · c₁ c₂ o) [c₁] [c₂]
  | .mappartwithupdate c₁ c₂ c₃ o => c.makePlan (.mapPartWithJoin · c₁ c₂ c₃ o) [c₁, c₂] [c₃]

def build (calls : List Call) : Context := calls.foldl call empty

end Context

/-! ## Reads and writes -/

/-- The same sets, however they are listed. -/
def ReadWriteVector.Same (a b : ReadWriteVector) : Prop :=
  (∀ c, c ∈ a.first ↔ c ∈ b.first) ∧ ∀ c, c ∈ a.second ↔ c ∈ b.second

/-- What the dag is told, without the reads that are also written. -/
def PlanNode.readWrite (n : PlanNode) : ReadWriteVector := ⟨n.read.filter (· ∉ n.write), n.write⟩

/-- A wrapper of C++ values that fits into a stream. -/
structure SpecWrapper.Sendable (w : Wire) : Prop where
  header : SpecWrapper.header.valid (w.type, w.id, w.name)
  spec : w.spec.valid
  size : SpecWrapper.header.size (w.type, w.id, w.name) + w.spec.size < 2 ^ 31

/-- The worker serialises the wrapper, and wherever its bytes are read next they are a wrapper
of which `P` holds. -/
def SpecWrapper.Delivers (w : Wire) (P : Wire → Prop) : Prop :=
  ∃ bytes, (∀ s, SpecWrapper.binType.out s w = .ok (s.addBin bytes)) ∧
    ∀ s old rest, s.buffer.length < 2 ^ 31 → s.unread = bytes ++ rest →
      ∃ w', SpecWrapper.binType.inn s old = .ok (w', s.skip bytes.length) ∧ P w'

/-- The dag, the spec and the spec that the scheduler has speak of the same sets. -/
def Agrees (n : PlanNode) (w : Wire) : Prop :=
  n.readWrite.Same w.getReadWrite ∧ w.Delivers fun w' => n.readWrite.Same w'.getReadWrite

/-- What the builder of a plan tells the dag. -/
def PlanBase.node : PlanBase → PlanNode
  | distribute id c .. => ⟨id, [], [c]⟩
  | load id c .. => ⟨id, [], [c]⟩
  | write id c .. => ⟨id, [c], []⟩
  | checkpoint id c _ .checkpoint _ => ⟨id, [c], []⟩
  | checkpoint id c _ .loadcheckpoint _ => ⟨id, [], [c]⟩
  | mapPartJoin id c₁ c₂ _ => ⟨id, [c₁], [c₂]⟩
  | mapPartWithJoin id c₁ c₂ c₃ _ => ⟨id, [c₁, c₂], [c₃]⟩

/-- The plans whose spec says what their builder tells the dag. -/
def PlanBase.Declared : PlanBase → Prop
  | write .. => False
  | checkpoint _ _ _ .loadcheckpoint _ => False
  | _ => True

theorem SpecWrapper.Spec.eqv.getReadWrite {x y : Spec (List UInt8) SArrayBinStream}
    (h : x.eqv y) : x.getReadWrite = y.getReadWrite := by
  unfold Spec.eqv at h
  split at h
  · next x y =>
    have hc : x.collectionId = y.collectionId := h.1
    show (⟨[], [x.collectionId]⟩ : ReadWriteVector) = ⟨[], [y.collectionId]⟩
    rw [hc]
  · rw [h]

/-- A wrapper whose tag is that of its class arrives with its sets. -/
theorem SpecWrapper.Sendable.delivers {w : Wire} (h : w.Sendable) (htype : w.type = w.spec.type) :
    w.Delivers fun w' => w'.getReadWrite = w.getReadWrite := by
  have hv : binType.valid w := ⟨htype, h.header, h.spec⟩
  refine ⟨binType.bytes w, fun s => roundTrip.write s w hv h.size, ?_⟩
  intro s old rest hs hu
  obtain ⟨w', hw', he⟩ := roundTrip.read s old w rest hv h.size trivial hs hu
  exact ⟨w', hw', (Spec.eqv.getReadWrite he.2.2.2).symm⟩

theorem SpecWrapper.Delivers.imp {w : Wire} {P Q : Wire → Prop} (h : w.Delivers P)
    (hPQ : ∀ w', P w' → Q w') : w.Delivers Q := by
  obtain ⟨bytes, hout, hinn⟩ := h
  refine ⟨bytes, hout, fun s old rest hs hu => ?_⟩
  obtain ⟨w', hw', hP⟩ := hinn s old rest hs hu
  exact ⟨w', hw', hPQ w' hP⟩

namespace PlanBase

variable {p : PlanBase}

theorem node_id (p : PlanBase) : p.node.id = p.planId := by
  cases p with
  | checkpoint id c url type name => cases type <;> rfl
  | _ => rfl

theorem Declared.type (h : p.Declared) : p.getSpec.type = p.getSpec.spec.type := by
  cases p with
  | checkpoint id c url type name =>
    cases type with
    | checkpoint => rfl
    | loadcheckpoint => exact h.elim
  | _ => rfl

/-- The two lists of reads are equal, not only the sets. -/
theorem Declared.readWrite (h : p.Declared) : p.node.readWrite = p.getSpec.getReadWrite := by
  cases p with
  | distribute id c n data name => rfl
  | load id c url isLoadMeta isWholeFile name => rfl
  | write id c url name => exact h.elim
  | checkpoint id c url type name =>
    cases type with
    | checkpoint => rfl
    | loadcheckpoint => exact h.elim
  | mapPartJoin id c₁ c₂ o =>
    show (⟨[c₁].filter (· ∉ [c₂]), [c₂]⟩ : ReadWriteVector) = if c₁ = c₂ then _ else _
    by_cases hc : c₁ = c₂
    · rw [if_pos hc, hc, filter_cons_of_neg (by simp)]
      rfl
    · rw [if_neg hc, filter_cons_of_pos (by simpa using hc)]
      rfl
  | mapPartWithJoin id c₁ c₂ c₃ o =>
    show (⟨[c₁, c₂].filter (· ∉ [c₃]), [c₃]⟩ : ReadWriteVector) =
      ⟨(if c₁ ≠ c₃ then [c₁] else []) ++ (if c₂ ≠ c₃ then [c₂] else []), [c₃]⟩
    have hone : ∀ c, [c].filter (· ∉ [c₃]) = if c ≠ c₃ then [c] else [] := by
      intro c
      by_cases hc : c = c₃
      · rw [if_neg (not_not.mpr hc), hc, filter_cons_of_neg (by simp)]
        rfl
      · rw [if_pos hc, filter_cons_of_pos (by simpa using hc)]
        rfl
    rw [← hone c₁, ← hone c₂, ← filter_append]
    rfl

/-- Of the two other kinds the spec says something else. -/
theorem not_same_of_not_declared (h : ¬ p.Declared) :
    ¬ p.node.readWrite.Same p.getSpec.getReadWrite := by
  cases p with
  | write id c url name =>
    intro hs
    have hmem := (hs.2 c).mpr (mem_singleton_self c)
    exact not_mem_nil hmem
  | checkpoint id c url type name =>
    cases type with
    | checkpoint => exact absurd trivial h
    | loadcheckpoint =>
      intro hs
      have hmem := (hs.1 c).mpr (mem_singleton_self c)
      exact not_mem_nil hmem
  | _ => exact absurd trivial h

theorem agrees_node_iff (hsend : p.getSpec.Sendable) : Agrees p.node p.getSpec ↔ p.Declared := by
  constructor
  · intro h
    by_contra hd
    exact not_same_of_not_declared hd h.1
  · intro hd
    have hrw := hd.readWrite
    refine ⟨by rw [hrw]; exact ⟨fun _ => Iff.rfl, fun _ => Iff.rfl⟩, ?_⟩
    refine (hsend.delivers hd.type).imp fun w' hw' => ?_
    rw [hw', hrw]
    exact ⟨fun _ => Iff.rfl, fun _ => Iff.rfl⟩

end PlanBase

/-! ## Every program -/

namespace Context

/-- Plans and nodes stand at their ids, each node as its plan has it. -/
structure Paired (c : Context) : Prop where
  nodes : c.nodes = c.plans.map PlanBase.node
  ids : c.plans.map PlanBase.planId = (List.range c.plans.length).map Int.ofNat

theorem paired_empty : Paired empty := ⟨rfl, rfl⟩

variable {c : Context}

theorem Paired.makePlan (h : Paired c) {plan : Int → PlanBase} {read write : List Int}
    (hplan : ∀ id, (plan id).node = ⟨id, read, write⟩) : Paired (c.makePlan plan read write) := by
  have hid : (plan c.plans.length).planId = c.plans.length := by
    rw [← PlanBase.node_id, hplan]
  refine ⟨?_, ?_⟩
  · show c.nodes ++ [_] = (c.plans ++ [_]).map PlanBase.node
    rw [map_append, ← h.nodes, map_singleton, hplan]
  · show (c.plans ++ [_]).map PlanBase.planId = (List.range (c.plans ++ [_]).length).map Int.ofNat
    rw [map_append, h.ids, length_append, length_singleton, range_succ,
      map_append, map_singleton, map_singleton, hid]
    rfl

theorem Paired.makeCollection (h : Paired c) {plan : Int → Int → PlanBase}
    (hplan : ∀ id cid, (plan id cid).node = ⟨id, [], [cid]⟩) : Paired (c.makeCollection plan) := by
  have hc : Paired { c with collections := c.collections + 1 } := ⟨h.nodes, h.ids⟩
  exact hc.makePlan fun id => hplan id _

theorem Paired.call (h : Paired c) (x : Call) : Paired (c.call x) := by
  unfold Context.call
  split
  all_goals first
    | exact h.makePlan fun _ => rfl
    | exact h.makeCollection fun _ _ => rfl

theorem paired_build (calls : List Call) : Paired (build calls) := by
  unfold build
  generalize hc : empty = c
  have h : Paired c := hc ▸ paired_empty
  clear hc
  induction calls generalizing c with
  | nil => exact h
  | cons x calls ih => exact ih (c.call x) (h.call x)

/-- The node that has the id of a plan is the one of the plan. -/
theorem Paired.node (h : Paired c) {p : PlanBase} {n : PlanNode} (hp : p ∈ c.plans)
    (hn : n ∈ c.nodes) (hid : n.id = p.planId) : n = p.node := by
  rw [h.nodes] at hn
  obtain ⟨q, hq, rfl⟩ := mem_map.mp hn
  rw [PlanBase.node_id] at hid
  have hnd : (c.plans.map PlanBase.planId).Nodup := by
    rw [h.ids]
    exact nodup_range.map fun _ _ he => Int.ofNat.inj he
  rw [inj_on_of_nodup_map hnd hq hp hid]

/-- **Every plan of every program.** -/
theorem agrees_iff (calls : List Call) {p : PlanBase} {n : PlanNode} (hp : p ∈ (build calls).plans)
    (hn : n ∈ (build calls).nodes) (hid : n.id = p.planId) (hsend : p.getSpec.Sendable) :
    Agrees n p.getSpec ↔ p.Declared := by
  rw [(paired_build calls).node hp hn hid]
  exact PlanBase.agrees_node_iff hsend

/-- A placeholder and a map-update of it by itself. -/
theorem agrees_iff_selfUpdate :
    Agrees ⟨1, [0], [0]⟩ (PlanBase.mapPartJoin 1 0 0 {}).getSpec := by
  have hint : ∀ x : Int, -2 ^ 31 ≤ x ∧ x < 2 ^ 31 → BinType.int.valid x := fun _ h => h
  refine (agrees_iff [.placeholder 1 [], .mapupdate 0 0 {}] (p := .mapPartJoin 1 0 0 {})
    (n := ⟨1, [0], [0]⟩) ?_ ?_ rfl ⟨?_, ?_, ?_⟩).mpr trivial
  · exact mem_cons_of_mem _ mem_cons_self
  · exact mem_cons_of_mem _ mem_cons_self
  · exact ⟨trivial, hint _ (by decide), fun c hc => absurd hc not_mem_nil⟩
  · exact ⟨hint _ (by decide), hint _ (by decide), hint _ (by decide), hint _ (by decide),
      hint _ (by decide), hint _ (by decide), fun c hc => absurd hc not_mem_nil,
      fun c hc => absurd hc not_mem_nil⟩
  · decide

/-- The dag has the plan that writes collection 0 out as a reader of it, and its spec as a writer. -/
theorem write_disagrees :
    ∃ p n, p ∈ (build [.placeholder 1 [], .write 0 [] []]).plans ∧
      n ∈ (build [.placeholder 1 [], .write 0 [] []]).nodes ∧ n.id = p.planId ∧
      n.readWrite = ⟨[0], []⟩ ∧ p.getSpec.getReadWrite = ⟨[], [0]⟩ ∧ ¬ Agrees n p.getSpec := by
  refine ⟨.write 1 0 [] ([] ++ text "::write"), ⟨1, [0], []⟩,
    mem_cons_of_mem _ mem_cons_self, mem_cons_of_mem _ mem_cons_self, rfl,
    rfl, rfl, fun h => ?_⟩
  exact not_mem_nil ((h.1.2 0).mpr (mem_singleton_self 0))

end Context

end Tangram
