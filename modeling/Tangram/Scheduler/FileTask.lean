import Mathlib

/-!
# Tasks for the partitions of a collection

The write manager and the checkpoint manager send a command for each partition to
the node that has it, and the worker replies when it is done.  `Stored` is where the
partitions are, as the collection map has it, and what is in them.
-/

namespace Tangram

open List

variable {P : Type}

/-- A command for one partition, or the reply to it.  Both carry the collection but not the plan. -/
structure FileTask where
  cid : Int
  partId : Nat
  nodeId : Int
  destUrl : String
  planId : Int
  replied : Bool
deriving DecidableEq, Repr

namespace FileTask

/-- The commands of a plan, where `name` is the file of a partition. -/
def commands (view : List Int) (planId cid : Int) (name : Nat → String) : List FileTask :=
  view.zipIdx.map fun x => ⟨cid, x.2, x.1, name x.2, planId, false⟩

variable {view : List Int} {planId cid : Int} {name : Nat → String} {t : FileTask}

theorem of_mem_commands (h : t ∈ commands view planId cid name) :
    t.cid = cid ∧ t.planId = planId ∧ view[t.partId]? = some t.nodeId ∧ t.destUrl = name t.partId ∧
      t.replied = false := by
  obtain ⟨x, hx, rfl⟩ := mem_map.mp h
  exact ⟨rfl, rfl, mem_zipIdx_iff_getElem?.mp hx, rfl, rfl⟩

theorem commands_mem {p : Nat} {node : Int} (h : view[p]? = some node) :
    ⟨cid, p, node, name p, planId, false⟩ ∈ commands view planId cid name :=
  mem_map.mpr ⟨(node, p), mem_zipIdx_iff_getElem?.mpr h, rfl⟩

theorem map_cid_commands (view : List Int) (planId cid : Int) (name : Nat → String) :
    (commands view planId cid name).map (·.cid) = List.replicate view.length cid := by
  unfold commands
  rw [map_map, show (fun t : FileTask => t.cid) ∘ _ = Function.const _ cid from rfl,
    map_const, length_zipIdx]

theorem commands_ne_nil (h : view ≠ []) : commands view planId cid name ≠ [] := by
  unfold commands
  simpa using h

end FileTask

/-! ## Partitions -/

/-- The collection map of the scheduler, and the partitions by node, collection and id. -/
structure Stored (P : Type) where
  collectionMap : Int → Option (List Int)
  partitions : Int × Int × Nat → Option P

namespace Stored

/-- What is in the partitions of a collection. -/
def contents (s : Stored P) (cid : Int) : List (Option P) :=
  match s.collectionMap cid with
  | none => []
  | some view => view.zipIdx.map fun x => s.partitions (x.1, cid, x.2)

/-- Every partition is on its node. -/
def Placed (s : Stored P) : Prop :=
  ∀ cid view p node, s.collectionMap cid = some view → view[p]? = some node →
    (s.partitions (node, cid, p)).isSome

/-- Other contents for the partitions of a collection. -/
def put (s : Stored P) (cid : Int) (parts : List P) : Stored P :=
  match s.collectionMap cid with
  | none => s
  | some view => { s with partitions := fun k =>
      if k.2.1 = cid ∧ view[k.2.2]? = some k.1 then parts[k.2.2]? else s.partitions k }

variable {s : Stored P} {cid c : Int} {view : List Int} {parts : List P}

theorem getElem?_contents (hview : s.collectionMap cid = some view) {p : Nat} {node : Int}
    (hp : view[p]? = some node) : (s.contents cid)[p]? = some (s.partitions (node, cid, p)) := by
  unfold contents
  simp [hview, getElem?_map, getElem?_zipIdx, hp]

theorem length_contents (hview : s.collectionMap cid = some view) :
    (s.contents cid).length = view.length := by
  unfold contents
  simp [hview]

theorem Placed.isSome_of_mem (h : s.Placed) {x : Option P} (hx : x ∈ s.contents cid) : x.isSome := by
  unfold contents at hx
  split at hx
  · exact absurd hx not_mem_nil
  · next view hview =>
    obtain ⟨y, hy, rfl⟩ := mem_map.mp hx
    exact h cid view y.2 y.1 hview (mem_zipIdx_iff_getElem?.mp hy)

/-- The contents depend on the partitions of the collection only. -/
theorem contents_congr {t : Stored P} (hmap : t.collectionMap = s.collectionMap)
    (hparts : ∀ node p, t.partitions (node, cid, p) = s.partitions (node, cid, p)) :
    t.contents cid = s.contents cid := by
  unfold contents
  rw [hmap]
  cases s.collectionMap cid with
  | none => rfl
  | some view => exact map_congr_left fun x _ => hparts x.1 x.2

@[simp] theorem collectionMap_put : (s.put cid parts).collectionMap = s.collectionMap := by
  unfold put
  split <;> rfl

theorem partitions_put_of_ne (h : c ≠ cid) (node : Int) (p : Nat) :
    (s.put cid parts).partitions (node, c, p) = s.partitions (node, c, p) := by
  unfold put
  split
  · rfl
  · exact if_neg fun hx => h hx.1

theorem contents_put_of_ne (h : c ≠ cid) : (s.put cid parts).contents c = s.contents c :=
  contents_congr collectionMap_put (partitions_put_of_ne h)

theorem Placed.put (h : s.Placed) (hview : s.collectionMap cid = some view)
    (hlen : parts.length = view.length) : (s.put cid parts).Placed := by
  intro c view' p node hc hp
  rw [collectionMap_put] at hc
  unfold Stored.put
  simp only [hview]
  by_cases hx : c = cid ∧ view[p]? = some node
  · obtain ⟨hlt, -⟩ := List.getElem?_eq_some_iff.mp hx.2
    rw [if_pos hx, List.getElem?_eq_getElem (by omega)]
    rfl
  · rw [if_neg hx]
    exact h c view' p node hc hp

end Stored

end Tangram
