import Tangram.Lib.RoundRobin
import Tangram.Scheduler.ReassignMap

/-!
# Dead nodes are replaced

`ReplaceDeadnodesAndReturnUpdated` gives the partitions of dead nodes to the live
nodes in turn, leaves the others where they are and returns what it gave; the
difference that `ReassignMap` finds between the new map and the one it has cached
is the same.

    replaceDead dead live l 0 0 = (new, the partitions of dead nodes)      (replacement_exact)
-/

namespace Tangram

open RoundRobin List

namespace RecoverManager

variable {dead : OrdSet Int} {live l : List Int}

/-- The nodes that the dead ones of `l` are replaced by, in order. -/
def given (dead : OrdSet Int) (l new : List Int) : List Int :=
  ((l.zip new).filter fun x => x.1 ∈ dead).map Prod.snd

/-- Every dead node has its turn; the partitions are those of dead nodes. -/
theorem replaceDead_cases (l : List Int) (i : Int) {it : Nat} (hit : it < live.length) :
    given dead l (replaceDead dead live l i it).1 = deal live 0 it (l.countP (· ∈ dead)) ∧
      (∀ x ∈ l.zip (replaceDead dead live l i it).1, x.1 ∉ dead → x.2 = x.1) ∧
      (replaceDead dead live l i it).2 =
        ((List.range l.length).filter fun j => l.getD j 0 ∈ dead).map fun (j : Nat) => i + j := by
  induction l generalizing i it with
  | nil => exact ⟨rfl, by simp, rfl⟩
  | cons n l ih =>
    -- the first partition is `i`, the others are one further
    have hparts : ∀ js : List Nat, (js.map Nat.succ).map (fun (j : Nat) => i + j) =
        js.map fun (j : Nat) => (i + 1) + j := by
      intro js
      rw [map_map]
      refine map_congr_left fun j _ => ?_
      show i + ((j + 1 : Nat) : Int) = i + 1 + j
      omega
    have hfilter : ((List.range (l.length + 1)).filter fun j => (n :: l).getD j 0 ∈ dead) =
        (if n ∈ dead then [0] else []) ++
          ((List.range l.length).filter fun j => l.getD j 0 ∈ dead).map Nat.succ := by
      rw [range_succ_eq_map, filter_cons, filter_map]
      by_cases hn : n ∈ dead
      · simp [hn, Function.comp_def]
      · simp [hn, Function.comp_def]
    rw [length_cons, hfilter, map_append, hparts]
    unfold replaceDead
    by_cases hn : n ∈ dead
    · have hnext : (if it + 1 = live.length then 0 else it + 1) = (it + 1) % live.length := by
        split
        · next h => rw [h, Nat.mod_self]
        · rw [Nat.mod_eq_of_lt (by omega)]
      have hlt : (it + 1) % live.length < live.length := Nat.mod_lt _ (by omega)
      obtain ⟨hgiven, hkept, hups⟩ := ih (i + 1) hlt
      rw [deal_mod] at hgiven
      simp only [if_pos hn, hnext]
      refine ⟨?_, ?_, ?_⟩
      · rw [countP_cons_of_pos (by simpa using hn), deal_succ, ← hgiven,
          Nat.mod_eq_of_lt hit]
        simp [given, hn]
      · intro x hx hdead
        rcases mem_cons.mp hx with rfl | hx
        · exact absurd hn hdead
        · exact hkept x hx hdead
      · rw [hups]
        simp
    · obtain ⟨hgiven, hkept, hups⟩ := ih (i + 1) hit
      simp only [if_neg hn]
      refine ⟨?_, ?_, ?_⟩
      · rw [countP_cons_of_neg (by simpa using hn), ← hgiven]
        simp [given, hn]
      · intro x hx hdead
        rcases mem_cons.mp hx with rfl | hx
        · rfl
        · exact hkept x hx hdead
      · rw [hups]
        simp

/-- Two maps of the same length, partition by partition. -/
theorem map_nodeOf_zip {new : List Int} (h : new.length = l.length) :
    (partsOf l).map (fun p => (nodeOf l p, nodeOf new p)) = l.zip new := by
  unfold partsOf
  rw [map_map]
  refine ext_getElem (by simp [h]) fun j h₁ h₂ => ?_
  have hj : j < l.length := by simpa using h₁
  simp [nodeOf, getElem?_eq_getElem hj, getElem?_eq_getElem (h ▸ hj : j < new.length)]

end RecoverManager

open RecoverManager Scheduler in
/-- **The replacement is exact.**  No partition is left on a dead node, the others keep theirs,
what is returned are the partitions of dead nodes in increasing order, every live node gets its
share of them, and they are what `ReassignMap` reports if it has cached the old map. -/
theorem replacement_exact (s : RecoverManager) (cid : Int) (dead : OrdSet Int) (l : List Int)
    (hmap : s.collectionMap cid = some l) (hlive : s.nodes.elems ≠ [])
    (hdisj : ∀ n ∈ dead, n ∉ s.nodes) :
    ∃ updates s' new, s.replaceDeadnodesAndReturnUpdated cid dead = .ok (updates, s') ∧
      s'.collectionMap cid = some new ∧ new.length = l.length ∧
      (∀ n ∈ new, n ∉ dead) ∧
      (∀ p ∈ partsOf l, nodeOf l p ∉ dead → nodeOf new p = nodeOf l p) ∧
      updates = (partsOf l).filter (fun p => nodeOf l p ∈ dead) ∧ updates.Pairwise (· < ·) ∧
      (∀ n ∈ s.nodes, ∀ n' ∈ s.nodes, updates.countP (fun p => nodeOf new p = n) ≤
        updates.countP (fun p => nodeOf new p = n') + 1) ∧
      reassignments l new = updates.map fun p => (p, nodeOf new p) := by
  have hpos : 0 < s.nodes.elems.length := length_pos_iff.mpr hlive
  obtain ⟨hgiven, hkept, hups⟩ := @replaceDead_cases dead _ l 0 0 hpos
  have hlen := replaceDead_length dead s.nodes.elems l 0 0
  generalize hnew : (replaceDead dead s.nodes.elems l 0 0).1 = new at hgiven hkept hlen
  generalize hupd : (replaceDead dead s.nodes.elems l 0 0).2 = updates at hups
  have hzip := map_nodeOf_zip hlen
  -- partition by partition
  have hpair : ∀ p ∈ partsOf l, (nodeOf l p, nodeOf new p) ∈ l.zip new := by
    intro p hp
    rw [← hzip]
    exact mem_map_of_mem hp
  have hstay : ∀ p ∈ partsOf l, nodeOf l p ∉ dead → nodeOf new p = nodeOf l p :=
    fun p hp hd => hkept _ (hpair p hp) hd
  have hupdates : updates = (partsOf l).filter fun p => nodeOf l p ∈ dead := by
    rw [hups, partsOf, filter_map]
    refine congrArg₂ List.map (funext fun j => Int.zero_add _) (filter_congr fun j _ => ?_)
    rfl
  have hgiven' : updates.map (nodeOf new) = deal s.nodes.elems 0 0 (l.countP (· ∈ dead)) := by
    rw [← hgiven, given, ← hzip, hupdates, filter_map, map_map]
    rfl
  have hmoved : ∀ p ∈ partsOf l, nodeOf l p ∈ dead → nodeOf new p ∈ s.nodes := by
    intro p hp hd
    have hmem : nodeOf new p ∈ updates.map (nodeOf new) := by
      rw [hupdates]
      exact mem_map_of_mem (mem_filter.mpr ⟨hp, decide_eq_true hd⟩)
    rw [hgiven'] at hmem
    exact deal_subset hlive 0 _ hmem
  have hdiff : ∀ p ∈ partsOf l, nodeOf new p ≠ nodeOf l p ↔ nodeOf l p ∈ dead := by
    intro p hp
    constructor
    · intro hne
      by_contra hd
      exact hne (hstay p hp hd)
    · intro hd heq
      exact hdisj _ hd (heq ▸ hmoved p hp hd)
  have hcount : ∀ n, updates.countP (fun p => nodeOf new p = n) =
      (deal s.nodes.elems 0 0 (l.countP (· ∈ dead))).count n := by
    intro n
    rw [← hgiven', List.count, countP_map]
    exact countP_congr fun p _ => by simp
  refine ⟨updates, { s with collectionMap := Function.update s.collectionMap cid (some new) }, new,
    ?_, Function.update_self _ _ _, hlen, fun n hn => ?_, hstay, hupdates, ?_, ?_, ?_⟩
  · unfold replaceDeadnodesAndReturnUpdated getMap
    simp only [hmap]
    show Except.ok _ = _
    rw [hnew, hupd]
  · obtain ⟨j, hj, rfl⟩ := mem_iff_getElem.mp hn
    have hp : (j : Int) ∈ partsOf l := mem_partsOf.mpr (by omega)
    have hnode : nodeOf new j = new[j] := by
      simp [nodeOf, getElem?_eq_getElem hj]
    rw [← hnode]
    by_cases hd : nodeOf l j ∈ dead
    · exact fun hmem => hdisj _ hmem (hmoved j hp hd)
    · rw [hstay j hp hd]
      exact hd
  · rw [hupdates]
    refine List.Pairwise.filter _ ?_
    unfold partsOf
    exact pairwise_map.mpr (pairwise_lt_range.imp fun h => by simpa using h)
  · intro n hn n' hn'
    rw [hcount, hcount]
    exact count_deal_le s.nodes.nodup hn hn' _
  · have hparts : partsOf new = partsOf l := by
      unfold partsOf
      rw [hlen]
    unfold reassignments
    rw [hparts, hupdates]
    congr 1
    exact filter_congr fun p hp => decide_eq_decide.mpr (hdiff p hp)

/-- Three of five partitions were on nodes that are gone. -/
def twoLeft : RecoverManager :=
  { RecoverManager.survivor with
    nodes := ⟨[3, 5], by decide⟩
    collectionMap := fun _ => some [4, 3, 6, 5, 4] }

theorem replacement_exact_twoLeft :
    ∃ updates s' new,
      twoLeft.replaceDeadnodesAndReturnUpdated 0 ⟨[4, 6], by decide⟩ = .ok (updates, s') ∧
      s'.collectionMap 0 = some new ∧ updates = [0, 2, 4] ∧
      Scheduler.reassignments [4, 3, 6, 5, 4] new = updates.map fun p => (p, nodeOf new p) := by
  have hdisj : ∀ n ∈ [4, 6], n ∉ twoLeft.nodes.elems := by decide
  obtain ⟨updates, s', new, hok, hmap, -, -, -, hups, -, -, hre⟩ :=
    replacement_exact twoLeft 0 ⟨[4, 6], by decide⟩ [4, 3, 6, 5, 4] rfl (by decide) hdisj
  refine ⟨updates, s', new, hok, hmap, ?_, hre⟩
  rw [hups]
  decide

end Tangram
