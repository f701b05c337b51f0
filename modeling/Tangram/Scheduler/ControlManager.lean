import Tangram.Lib.MinCount
import Tangram.Lib.Run
import Tangram.Lib.Table
import Tangram.Worker.Control

/-!
# The control manager

The scheduler's side of one plan (`core/scheduler/control_manager.cpp`), without
migration.  Controllers report every version that a partition finishes; the
manager keeps, for every node, the least version of its partitions and how many
of them are at it, and from these the least version of the plan, which it
broadcasts.  Times, which are only logged, are left out.
-/

namespace Tangram

open StepRun List Function

/-! ## State -/

/-- What the manager knows of a plan: its spec, the nodes and the two part-to-node maps. -/
structure Plan where
  planId : Int
  nodes : List Int
  mapPartToNode : List Int
  updatePartToNode : List Int
  updateCollectionId : Int
  numIter : Int
  checkpointInterval : Int
  checkpointPath : String

/-- The partitions of a collection, `0` to `size - 1`. -/
def partsOf (partToNode : List Int) : List Int :=
  (List.range partToNode.length).map Int.ofNat

def nodeOf (partToNode : List Int) (p : Int) : Int := partToNode.getD p.toNat 0

/-- The partitions that are on node `n`. -/
def owned (partToNode : List Int) (n : Int) : List Int :=
  (partsOf partToNode).filter fun p => nodeOf partToNode p = n

/-- The `CHECK`s of the manager; the two version handlers make the same two. -/
inductive ControlCheck
  | versionByOne (flag : ControllerMsgFlag)
  | nodeCount (flag : ControllerMsgFlag)
  | checkpointPath
  | callback
deriving DecidableEq, Repr

/-- `*_part_versions_`, `*_node_versions_` and `*_node_count_` of one plan. -/
structure NodeVersions where
  part : Table Int Int
  node : Table Int Int
  count : Table Int Int

/-- What is sent to all controllers. -/
inductive Broadcast
  | kSetup
  | kStart
  | kUpdateVersion (version : Int)
  | kTerminatePlan
deriving DecidableEq, Repr

structure ControlManager where
  isSetup : Finset Int
  isFinished : Finset Int
  versions : Int
  map : NodeVersions
  update : NodeVersions
  cpCount : Int → Finset Int
  /-- The urls given to `AddCP` for the update collection. -/
  addedCps : List String
  /-- The callback of the plan is still to be called. -/
  hasCallback : Bool
  broadcasts : List Broadcast

/-! ## Handlers -/

def NodeVersions.init (nodes partToNode : List Int) : NodeVersions where
  part := .ofKeys (partsOf partToNode) 0
  node := .ofKeys nodes 0
  count := partToNode.foldl (fun t n => t.set n (t.val n + 1)) (.ofKeys nodes 0)

/-- How many partitions of node `n` are at the version of the node. -/
def NodeVersions.recount (partToNode : List Int) (t : NodeVersions) (n : Int) : Int :=
  t.part.keys.countP fun q => nodeOf partToNode q = n ∧ t.part.val q = t.node.val n

/-- What `HandleUpdateMapVersion` and `HandleUpdateJoinVersion` share: the report is entered;
whether the node of the partition reached its next version. -/
def NodeVersions.advance (flag : ControllerMsgFlag) (partToNode : List Int) (t : NodeVersions)
    (p v : Int) : Except ControlCheck (Bool × NodeVersions) := do
  check (.versionByOne flag) (t.part.val p + 1 = v)
  let t := { t with part := t.part.set p v }
  let n := nodeOf partToNode p
  if t.node.val n = v - 1 then
    check (.nodeCount flag) (0 < t.count.val n)
    let t := { t with count := t.count.set n (t.count.val n - 1) }
    if t.count.val n = 0 then
      let t := { t with node := t.node.set n (t.node.val n + 1) }
      return (true, { t with count := t.count.set n (t.recount partToNode n) })
    else return (false, t)
  else return (false, t)

namespace ControlManager

variable (plan : Plan)

def sendToAllControllers (s : ControlManager) (b : Broadcast) : ControlManager :=
  { s with broadcasts := s.broadcasts ++ [b] }

/-- `RunPlan`. -/
def runPlan : ControlManager where
  isSetup := ∅
  isFinished := ∅
  versions := 0
  map := ⟨.ofKeys [] 0, .ofKeys [] 0, .ofKeys [] 0⟩
  update := ⟨.ofKeys [] 0, .ofKeys [] 0, .ofKeys [] 0⟩
  cpCount := fun _ => ∅
  addedCps := []
  hasCallback := true
  broadcasts := [.kSetup]

def init (s : ControlManager) : ControlManager :=
  { s with
    map := .init plan.nodes plan.mapPartToNode
    update := .init plan.nodes plan.updatePartToNode }

/-- The url of checkpoint `iter`. -/
def cpUrl (iter : Int) : String := plan.checkpointPath ++ "/cp-" ++ toString iter

def addCp (s : ControlManager) : Except ControlCheck ControlManager := do
  check .checkpointPath (plan.checkpointPath ≠ "")
  return { s with
    addedCps := s.addedCps ++ [cpUrl plan (s.versions.tdiv plan.checkpointInterval)] }

/-- The last version terminates the plan, any other is announced. -/
def announce (s : ControlManager) : ControlManager :=
  if s.versions = plan.numIter then s.sendToAllControllers .kTerminatePlan
  else s.sendToAllControllers (.kUpdateVersion s.versions)

def updateVersion (s : ControlManager) : Except ControlCheck ControlManager := do
  let s := { s with versions := s.versions + 1 }
  let s ← if plan.checkpointInterval ≠ 0 ∧ s.versions.tmod plan.checkpointInterval = 0
    then addCp plan s else .ok s
  return announce plan s

/-- No node that owns partitions is at the version of the plan any more. -/
def allPassed (s : ControlManager) : Bool :=
  s.update.node.keys.all fun n =>
    decide (s.update.count.val n = 0) || decide (s.update.node.val n ≠ s.versions)

def handleUpdateMapVersion (s : ControlManager) (p v : Int) :
    Except ControlCheck ControlManager := do
  let (_, t) ← s.map.advance .kMap plan.mapPartToNode p v
  return { s with map := t }

def handleUpdateJoinVersion (s : ControlManager) (p v : Int) :
    Except ControlCheck ControlManager := do
  let (rolled, t) ← s.update.advance .kJoin plan.updatePartToNode p v
  let s := { s with update := t }
  if rolled then
    if s.allPassed then updateVersion plan s else return s
  else return s

def receiveFinishCP (s : ControlManager) (p v : Int) : Except ControlCheck ControlManager :=
  if s.versions = plan.numIter then .ok s
  else
    let s := { s with cpCount := Function.update s.cpCount v (insert p (s.cpCount v)) }
    if (s.cpCount v).card = plan.mapPartToNode.length ∧ plan.checkpointInterval ≠ 0
    then addCp plan s else .ok s

/-- `Control`. -/
def control (s : ControlManager) (ctrl : ControllerMsg) : Except ControlCheck ControlManager :=
  match ctrl.flag with
  | .kSetup =>
    let s := { s with isSetup := insert ctrl.nodeId s.isSetup }
    if s.isSetup.card = plan.nodes.length
    then .ok (init plan (s.sendToAllControllers .kStart)) else .ok s
  | .kMap => handleUpdateMapVersion plan s ctrl.partId ctrl.version
  | .kJoin => handleUpdateJoinVersion plan s ctrl.partId ctrl.version
  | .kFinish => do
    let s := { s with isFinished := insert ctrl.nodeId s.isFinished }
    if s.isFinished.card = plan.nodes.length then
      check .callback (s.hasCallback = true)
      return { s with hasCallback := false }
    else return s
  | .kFinishMigrate => .ok s
  | .kFinishCP => receiveFinishCP plan s ctrl.partId ctrl.version

end ControlManager

/-! ## The counted minimum of every node -/

variable {partToNode : List Int}

theorem mem_partsOf {p : Int} : p ∈ partsOf partToNode ↔ 0 ≤ p ∧ p < partToNode.length := by
  unfold partsOf
  rw [mem_map]
  constructor
  · rintro ⟨i, hi, rfl⟩
    rw [mem_range] at hi
    simp only [Int.ofNat_eq_natCast]
    omega
  · rintro ⟨h0, hlt⟩
    exact ⟨p.toNat, mem_range.mpr (by omega), by simp only [Int.ofNat_eq_natCast]; omega⟩

theorem partsOf_nodup (partToNode : List Int) : (partsOf partToNode).Nodup :=
  nodup_range.map fun _ _ h => Int.ofNat.inj h

theorem mem_owned {n p : Int} :
    p ∈ owned partToNode n ↔ p ∈ partsOf partToNode ∧ nodeOf partToNode p = n := by
  simp [owned]

theorem mem_owned_nodeOf {p : Int} (hp : p ∈ partsOf partToNode) :
    p ∈ owned partToNode (nodeOf partToNode p) :=
  mem_owned.mpr ⟨hp, rfl⟩

theorem nodeOf_mem {p : Int} (hp : p ∈ partsOf partToNode) : nodeOf partToNode p ∈ partToNode := by
  obtain ⟨h0, hlt⟩ := mem_partsOf.mp hp
  have hi : p.toNat < partToNode.length := by omega
  rw [nodeOf, List.getD, getElem?_eq_getElem hi]
  exact getElem_mem hi

/-- The tables of one collection: every node that owns partitions has the least of their
versions and the number of partitions at it. -/
structure NodeVersions.Inv (nodes partToNode : List Int) (t : NodeVersions) : Prop where
  partKeys : t.part.keys = partsOf partToNode
  nodeKeys : t.node.keys = nodes
  none : ∀ n, owned partToNode n = [] → t.count.val n = 0
  some : ∀ n, owned partToNode n ≠ [] →
    MinCount (owned partToNode n) t.part.val (t.node.val n) (t.count.val n)

/-- The same for the nodes of which `P` holds. -/
structure NodeVersions.InvOn (P : Int → Prop) (nodes partToNode : List Int) (t : NodeVersions) :
    Prop where
  partKeys : t.part.keys = partsOf partToNode
  nodeKeys : t.node.keys = nodes
  none : ∀ n, P n → owned partToNode n = [] → t.count.val n = 0
  some : ∀ n, P n → owned partToNode n ≠ [] →
    MinCount (owned partToNode n) t.part.val (t.node.val n) (t.count.val n)

theorem NodeVersions.inv_iff_invOn {nodes partToNode : List Int} {t : NodeVersions} :
    t.Inv nodes partToNode ↔ t.InvOn (fun _ => True) nodes partToNode :=
  ⟨fun h => ⟨h.partKeys, h.nodeKeys, fun n _ => h.none n, fun n _ => h.some n⟩,
    fun h => ⟨h.partKeys, h.nodeKeys, fun n => h.none n trivial, fun n => h.some n trivial⟩⟩

theorem count_foldl (l : List Int) (t : Table Int Int) (n : Int) :
    (l.foldl (fun t n => t.set n (t.val n + 1)) t).val n = t.val n + l.count n := by
  induction l generalizing t with
  | nil => simp
  | cons a l ih =>
    rw [foldl_cons, ih, Table.val_set, count_cons]
    by_cases h : n = a
    · subst h
      simp
      omega
    · simp [h, Ne.symm h]

theorem length_owned (partToNode : List Int) (n : Int) :
    (owned partToNode n).length = partToNode.count n := by
  have hmap : (partsOf partToNode).map (nodeOf partToNode) = partToNode := by
    refine ext_getElem (by simp [partsOf]) fun i h₁ h₂ => ?_
    simp [partsOf, nodeOf, h₂]
  calc (owned partToNode n).length
      = (partsOf partToNode).countP (fun p => nodeOf partToNode p = n) := by
        rw [owned, countP_eq_length_filter]
    _ = ((partsOf partToNode).map (nodeOf partToNode)).count n := by
        rw [List.count, countP_map]
        rfl
    _ = partToNode.count n := by rw [hmap]

theorem NodeVersions.inv_init (nodes partToNode : List Int) :
    (NodeVersions.init nodes partToNode).Inv nodes partToNode := by
  have hcount : ∀ n, (NodeVersions.init nodes partToNode).count.val n =
      (owned partToNode n).length := by
    intro n
    rw [NodeVersions.init, count_foldl, length_owned]
    simp
  refine ⟨rfl, rfl, fun n hn => ?_, fun n hn => ?_⟩
  · rw [hcount, hn]
    rfl
  · rw [hcount]
    exact MinCount.const hn 0

section Advance

variable {nodes partToNode : List Int} {t : NodeVersions} {p : Int} (flag : ControllerMsgFlag)

theorem recount_eq (hk : t.part.keys = partsOf partToNode) (n : Int) :
    t.recount partToNode n = (owned partToNode n).countP fun q => t.part.val q = t.node.val n := by
  rw [NodeVersions.recount, hk, owned, countP_filter]
  congr 1
  refine countP_congr fun q _ => ?_
  simp [and_comm]

theorem val_set_eq_update (t : Table Int Int) (p v : Int) :
    (t.set p v).val = update t.val p v := rfl

/-- The partition was above the version of its node. -/
theorem advance_above (hm : t.part.val p ≠ t.node.val (nodeOf partToNode p)) :
    t.advance flag partToNode p (t.part.val p + 1) =
      .ok (false, { t with part := t.part.set p (t.part.val p + 1) }) := by
  simp [NodeVersions.advance, check, Bind.bind, Except.bind, Ne.symm hm, pure, Except.pure]

/-- It was one of several at the version of its node. -/
theorem advance_min (hm : t.part.val p = t.node.val (nodeOf partToNode p))
    (hk : 0 < t.count.val (nodeOf partToNode p)) (hk₁ : t.count.val (nodeOf partToNode p) - 1 ≠ 0) :
    t.advance flag partToNode p (t.part.val p + 1) =
      .ok (false, { t with
        part := t.part.set p (t.part.val p + 1)
        count := t.count.set (nodeOf partToNode p) (t.count.val (nodeOf partToNode p) - 1) }) := by
  have he : t.node.val (nodeOf partToNode p) = t.part.val p + 1 - 1 := by omega
  simp [NodeVersions.advance, check, Bind.bind, Except.bind, he, hk, hk₁, pure, Except.pure]

/-- It was the last one: the node moves on and its partitions are counted anew. -/
theorem advance_last (hm : t.part.val p = t.node.val (nodeOf partToNode p))
    (hk : 0 < t.count.val (nodeOf partToNode p)) (hk₁ : t.count.val (nodeOf partToNode p) - 1 = 0)
    (hkeys : (t.part.set p (t.part.val p + 1)).keys = partsOf partToNode) :
    ∃ t', t.advance flag partToNode p (t.part.val p + 1) = .ok (true, t') ∧
      t'.part = t.part.set p (t.part.val p + 1) ∧
      t'.node = t.node.set (nodeOf partToNode p) (t.node.val (nodeOf partToNode p) + 1) ∧
      ∀ n, t'.count.val n = if n = nodeOf partToNode p then
        ((owned partToNode n).countP fun q => update t.part.val p (t.part.val p + 1) q =
          t.node.val n + 1 : Int)
        else t.count.val n := by
  have he : t.node.val (nodeOf partToNode p) = t.part.val p + 1 - 1 := by omega
  refine ⟨_, by
    simp only [NodeVersions.advance, check, Bind.bind, Except.bind, he, hk, hk₁, if_true,
      Table.val_set_self, pure, Except.pure]
    rfl, rfl, by simp [he], fun n => ?_⟩
  rw [Table.val_set]
  split_ifs with hn
  · subst hn
    rw [recount_eq hkeys]
    simp [he, val_set_eq_update]
  · rw [Table.val_set_ne _ _ hn]

/-- **One report.**  The version after the last one of a partition passes both checks, and the
tables stay right; `rolled` says whether the node of the partition moved on. -/
theorem NodeVersions.InvOn.advance {P : Int → Prop} (h : t.InvOn P nodes partToNode)
    (hnodes : ∀ n ∈ partToNode, n ∈ nodes) (hp : p ∈ partsOf partToNode)
    (hP : P (nodeOf partToNode p)) :
    ∃ rolled t', t.advance flag partToNode p (t.part.val p + 1) = .ok (rolled, t') ∧
      t'.InvOn P nodes partToNode ∧ t'.part.val = update t.part.val p (t.part.val p + 1) ∧
      t'.node.val (nodeOf partToNode p) =
        t.node.val (nodeOf partToNode p) + (if rolled then 1 else 0) ∧
      ∀ n, n ≠ nodeOf partToNode p → t'.node.val n = t.node.val n := by
  set n := nodeOf partToNode p with hn
  have hown : p ∈ owned partToNode n := mem_owned_nodeOf hp
  have hne : owned partToNode n ≠ [] := ne_nil_of_mem hown
  have hnd : (owned partToNode n).Nodup := (partsOf_nodup _).filter _
  have hmin := h.some n hP hne
  have hkeys : (t.part.set p (t.part.val p + 1)).keys = partsOf partToNode := by
    rw [← h.partKeys]
    exact Table.keys_set_of_mem _ _ (h.partKeys ▸ hp)
  have hnkeys : ∀ v, (t.node.set n v).keys = nodes := by
    intro v
    rw [← h.nodeKeys]
    exact Table.keys_set_of_mem _ _ (h.nodeKeys ▸ hnodes n (hn ▸ nodeOf_mem hp))
  -- the partitions of the other nodes have not moved
  have hother : ∀ n', n' ≠ n → P n' → owned partToNode n' ≠ [] →
      MinCount (owned partToNode n') (update t.part.val p (t.part.val p + 1))
        (t.node.val n') (t.count.val n') := by
    intro n' hn' hP' ho
    have hm := h.some n' hP' ho
    have hval : ∀ q ∈ owned partToNode n',
        update t.part.val p (t.part.val p + 1) q = t.part.val q := by
      intro q hq
      refine update_of_ne ?_ _ _
      rintro rfl
      exact hn' ((mem_owned.mp hq).2.symm.trans hn.symm)
    refine ⟨fun q hq => (hval q hq).symm ▸ hm.le q hq, ?_, hm.pos⟩
    rw [hm.count]
    congr 1
    exact countP_congr fun q hq => by rw [hval q hq]
  have hset : ∀ v n', n' ≠ n → (t.count.set n v).val n' = t.count.val n' :=
    fun v n' hn' => Table.val_set_ne _ _ hn'
  by_cases hm : t.part.val p = t.node.val n
  · by_cases hk₁ : t.count.val n - 1 = 0
    · obtain ⟨t', hadv, hpart, hnode, hcount⟩ := advance_last flag hm hmin.pos hk₁ hkeys
      refine ⟨true, t', hadv, ⟨hpart ▸ hkeys, hnode ▸ hnkeys _, fun n' hP' ho => ?_,
        fun n' hP' ho => ?_⟩,
        by rw [hpart]; rfl, by rw [hnode]; simp [← hn], fun n' hn' => by
          rw [hnode, Table.val_set_ne _ _ hn']⟩
      · have hn' : n' ≠ n := fun he => hne (he ▸ ho)
        rw [hcount, if_neg hn']
        exact h.none n' hP' ho
      · rw [hpart, hnode, hcount, val_set_eq_update]
        by_cases hn' : n' = n
        · subst hn'
          rw [if_pos rfl, Table.val_set_self]
          exact hmin.incr_last hnd hown hm hk₁
        · rw [if_neg hn', Table.val_set_ne _ _ hn']
          exact hother n' hn' hP' ho
    · refine ⟨false, _, advance_min flag hm hmin.pos hk₁, ⟨hkeys, h.nodeKeys, fun n' hP' ho => ?_,
        fun n' hP' ho => ?_⟩, rfl, by simp, fun n' _ => rfl⟩
      · have hn' : n' ≠ n := fun he => hne (he ▸ ho)
        show (t.count.set n _).val n' = 0
        rw [hset _ _ hn']
        exact h.none n' hP' ho
      · show MinCount _ (update t.part.val p _) (t.node.val n') ((t.count.set n _).val n')
        by_cases hn' : n' = n
        · subst hn'
          rw [Table.val_set_self]
          exact hmin.incr_min hnd hown hm hk₁
        · rw [hset _ _ hn']
          exact hother n' hn' hP' ho
  · refine ⟨false, _, advance_above flag hm, ⟨hkeys, h.nodeKeys, h.none, fun n' hP' ho => ?_⟩, rfl,
      by simp, fun n' _ => rfl⟩
    show MinCount _ (update t.part.val p _) (t.node.val n') (t.count.val n')
    by_cases hn' : n' = n
    · subst hn'
      exact hmin.incr_above hnd hown hm
    · exact hother n' hn' hP' ho

theorem NodeVersions.advance_spec (h : t.Inv nodes partToNode)
    (hnodes : ∀ n ∈ partToNode, n ∈ nodes) (hp : p ∈ partsOf partToNode) :
    ∃ rolled t', t.advance flag partToNode p (t.part.val p + 1) = .ok (rolled, t') ∧
      t'.Inv nodes partToNode ∧ t'.part.val = update t.part.val p (t.part.val p + 1) ∧
      t'.node.val (nodeOf partToNode p) =
        t.node.val (nodeOf partToNode p) + (if rolled then 1 else 0) ∧
      ∀ n, n ≠ nodeOf partToNode p → t'.node.val n = t.node.val n := by
  obtain ⟨rolled, t', hadv, hinv, hrest⟩ :=
    (inv_iff_invOn.mp h).advance flag hnodes hp trivial
  exact ⟨rolled, t', hadv, inv_iff_invOn.mpr hinv, hrest⟩

end Advance

end Tangram
