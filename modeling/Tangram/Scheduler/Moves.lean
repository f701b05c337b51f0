import Tangram.Scheduler.ReassignMap

/-!
# Moves of a partition

`ControlManager::BatchMigrate` moves partitions from one node to another and patches
the tables of both.  The patches go wrong in three ways:

  * a node that owns nothing and whose version is lower stays untracked,
  * the map table counts a partition at its own id where its version is that of the
    node,
  * a node that gives its only partition at the minimum looks for the next minimum in
    the new map, in which a move to itself has already arrived, and not above 1000000.

`UpdateFits` and `MapFits` say, of the tables before a move, that none of these
happens; a move keeps the tables right if and only if they hold
(`NodeVersions.update_move_iff`, `NodeVersions.map_move_iff`).
-/

namespace Tangram

open StepRun List Table

/-! ## The moves -/

/-- The tuple `(from_id, to_id, part_id)`. -/
structure Migration where
  fromId : Int
  toId : Int
  partId : Int
deriving DecidableEq, Repr

inductive MigrateCheck
  | noSpec | collectionMap
  | partId | fromId | minVersion | nodeVersion | nodeCount
deriving DecidableEq, Repr

/-- Where the search for a minimum starts. -/
def kNewMin : Int := 1000000

namespace NodeVersions

/-- The next minimum of node `n`, and the number of partitions at it. -/
def refill (partToNode : List Int) (t : NodeVersions) (n : Int) : NodeVersions :=
  let newMin := MinCount.leastFrom kNewMin t.part.val (owned partToNode n)
  { t with
    count := t.count.set n ((owned partToNode n).countP fun i => t.part.val i = newMin)
    node := t.node.set n newMin }

/-- A partition at the minimum of node `n` goes. -/
def give (partToNode : List Int) (t : NodeVersions) (n : Int) : NodeVersions :=
  if 1 < t.count.val n then { t with count := t.count.set n (t.count.val n - 1) }
  else t.refill partToNode n

def giveUpdate (partToNode : List Int) (t : NodeVersions) (fromId : Int) :
    Except MigrateCheck NodeVersions := do
  check .nodeCount (1 < t.count.val fromId ∨ t.count.val fromId = 1)
  return t.give partToNode fromId

def giveMap (partToNode : List Int) (t : NodeVersions) (fromId part : Int) : NodeVersions :=
  if t.node.val fromId = t.part.val part then t.give partToNode fromId else t

/-- Reading the version of a node enters it. -/
def look (t : NodeVersions) (n : Int) : NodeVersions :=
  { t with node := t.node.set n (t.node.val n) }

def takeUpdate (t : NodeVersions) (toId part : Int) : NodeVersions :=
  let t := t.look toId
  if t.part.val part < t.node.val toId then
    { t with count := t.count.set toId 1, node := t.node.set toId (t.part.val part) }
  else if t.part.val part = t.node.val toId then
    { t with count := t.count.set toId (t.count.val toId + 1) }
  else t

/-- As `takeUpdate`, but for the place that is counted at an equal version. -/
def takeMap (t : NodeVersions) (toId part : Int) : NodeVersions :=
  let t := t.look toId
  if t.part.val part < t.node.val toId then
    { t with count := t.count.set toId 1, node := t.node.set toId (t.part.val part) }
  else if t.part.val part = t.node.val toId then
    { t with count := t.count.set part (t.count.val part + 1) }
  else t

end NodeVersions

/-- The map after the move. -/
def Migration.apply (m : Migration) (partToNode : List Int) : List Int :=
  partToNode.set m.partId.toNat m.toId

/-! ## What a move does to a table -/

namespace NodeVersions

variable {partToNode : List Int} {t : NodeVersions} {n fromId toId p : Int}

theorem give_other (partToNode : List Int) (t : NodeVersions) {k n : Int} (hk : k ≠ n) :
    (t.give partToNode n).node.val k = t.node.val k ∧
      (t.give partToNode n).count.val k = t.count.val k := by
  unfold give
  split
  · exact ⟨rfl, val_set_ne _ _ hk⟩
  · exact ⟨val_set_ne _ _ hk, val_set_ne _ _ hk⟩

theorem give_part : (t.give partToNode n).part = t.part := by
  unfold give
  split <;> rfl

theorem give_self (partToNode : List Int) (t : NodeVersions) (n : Int) :
    (t.give partToNode n).node.val n = (if 1 < t.count.val n then t.node.val n
      else MinCount.leastFrom kNewMin t.part.val (owned partToNode n)) ∧
    (t.give partToNode n).count.val n = if 1 < t.count.val n then t.count.val n - 1
      else (owned partToNode n).countP fun i => t.part.val i =
        MinCount.leastFrom kNewMin t.part.val (owned partToNode n) := by
  unfold give
  split
  · exact ⟨rfl, val_set_self _ _ _⟩
  · exact ⟨val_set_self _ _ _, val_set_self _ _ _⟩

theorem giveMap_at (h : t.node.val fromId = t.part.val p) :
    t.giveMap partToNode fromId p = t.give partToNode fromId :=
  if_pos h

theorem giveMap_above (h : t.node.val fromId < t.part.val p) :
    t.giveMap partToNode fromId p = t :=
  if_neg (by omega)

theorem giveMap_part : (t.giveMap partToNode fromId p).part = t.part := by
  unfold giveMap
  split
  · exact give_part
  · rfl

theorem giveMap_other (partToNode : List Int) (t : NodeVersions) (p : Int) {k fromId : Int}
    (hk : k ≠ fromId) :
    (t.giveMap partToNode fromId p).node.val k = t.node.val k ∧
      (t.giveMap partToNode fromId p).count.val k = t.count.val k := by
  unfold giveMap
  split
  · exact give_other partToNode t hk
  · exact ⟨rfl, rfl⟩

theorem look_val (t : NodeVersions) (n : Int) : (t.look n).node.val = t.node.val := by
  unfold look
  rw [val_set_eq_update, Function.update_eq_self]

theorem takeUpdate_part : (t.takeUpdate toId p).part = t.part := by
  unfold takeUpdate
  simp only
  split
  · rfl
  · split <;> rfl

theorem takeUpdate_other (t : NodeVersions) (p : Int) {k toId : Int} (hk : k ≠ toId) :
    (t.takeUpdate toId p).node.val k = t.node.val k ∧
      (t.takeUpdate toId p).count.val k = t.count.val k := by
  have hlook := congrFun (look_val t toId) k
  unfold takeUpdate
  simp only
  split
  · exact ⟨(val_set_ne _ _ hk).trans hlook, val_set_ne _ _ hk⟩
  · split
    · exact ⟨hlook, val_set_ne _ _ hk⟩
    · exact ⟨hlook, rfl⟩

theorem takeUpdate_self (t : NodeVersions) (toId p : Int) :
    (t.takeUpdate toId p).node.val toId =
      (if t.part.val p < t.node.val toId then t.part.val p else t.node.val toId) ∧
    (t.takeUpdate toId p).count.val toId = if t.part.val p < t.node.val toId then 1
      else if t.part.val p = t.node.val toId then t.count.val toId + 1 else t.count.val toId := by
  unfold takeUpdate
  simp only [look_val]
  have hpart : (t.look toId).part = t.part := rfl
  have hcount : (t.look toId).count = t.count := rfl
  rw [hpart, hcount]
  split
  · exact ⟨val_set_self _ _ _, val_set_self _ _ _⟩
  · split
    · exact ⟨congrFun (look_val t toId) toId, val_set_self _ _ _⟩
    · exact ⟨congrFun (look_val t toId) toId, rfl⟩

/-- The map table is patched as the update table, unless the versions are equal and the partition
has another id than its new node. -/
theorem takeMap_eq (h : t.part.val p ≠ t.node.val toId ∨ p = toId) :
    t.takeMap toId p = t.takeUpdate toId p := by
  unfold takeMap takeUpdate
  simp only [look_val]
  rcases h with h | rfl
  · have hpart : (t.look toId).part = t.part := rfl
    rw [hpart, if_neg h, if_neg h]
  · rfl

theorem takeMap_at (h : t.part.val p = t.node.val toId) :
    t.takeMap toId p = { t.look toId with count := t.count.set p (t.count.val p + 1) } := by
  unfold takeMap
  simp only [look_val]
  have hpart : (t.look toId).part = t.part := rfl
  have hcount : (t.look toId).count = t.count := rfl
  rw [hpart, if_neg (by omega), if_pos h, hcount]

end NodeVersions

/-! ## Owners after a move -/

namespace Migration

variable {partToNode : List Int} {m : Migration} {n : Int}

theorem partsOf_apply (m : Migration) (partToNode : List Int) :
    partsOf (m.apply partToNode) = partsOf partToNode := by
  unfold partsOf apply
  rw [length_set]

theorem nodeOf_apply (hp : m.partId ∈ partsOf partToNode) {q : Int} (hq : q ∈ partsOf partToNode) :
    nodeOf (m.apply partToNode) q = Function.update (nodeOf partToNode) m.partId m.toId q := by
  obtain ⟨hp0, hplt⟩ := mem_partsOf.mp hp
  obtain ⟨hq0, hqlt⟩ := mem_partsOf.mp hq
  unfold nodeOf apply
  rw [List.getD, getElem?_set]
  by_cases hqp : q = m.partId
  · subst hqp
    rw [if_pos rfl, if_pos (by omega), Function.update_self]
    rfl
  · rw [if_neg (by omega), Function.update_of_ne hqp]
    rfl

theorem owned_apply (hp : m.partId ∈ partsOf partToNode) (n : Int) :
    owned (m.apply partToNode) n =
      ownedBy (partsOf partToNode) (Function.update (nodeOf partToNode) m.partId m.toId) n := by
  rw [owned_eq_ownedBy, partsOf_apply]
  apply ownedBy_congr
  intro q hq
  exact nodeOf_apply hp hq

section

variable (hp : m.partId ∈ partsOf partToNode) (hfrom : nodeOf partToNode m.partId = m.fromId)

include hp hfrom

theorem owned_apply_from (hne : m.toId ≠ m.fromId) : (owned partToNode m.fromId).Perm
    (m.partId :: owned (m.apply partToNode) m.fromId) := by
  rw [owned_apply hp, owned_eq_ownedBy, ← hfrom]
  apply ownedBy_leave (partsOf_nodup _) hp
  rwa [hfrom]

theorem owned_apply_to (hne : m.toId ≠ m.fromId) : (owned (m.apply partToNode) m.toId).Perm
    (m.partId :: owned partToNode m.toId) := by
  rw [owned_apply hp, owned_eq_ownedBy]
  apply ownedBy_arrive (partsOf_nodup _) hp
  rw [hfrom]
  exact hne.symm

theorem owned_apply_other (hto : n ≠ m.toId) (hn : n ≠ m.fromId) :
    owned (m.apply partToNode) n = owned partToNode n := by
  rw [owned_apply hp, owned_eq_ownedBy]
  apply ownedBy_other hto
  rw [hfrom]
  exact hn.symm

/-- A move of a node to itself. -/
theorem owned_apply_self (heq : m.toId = m.fromId) (n : Int) :
    owned (m.apply partToNode) n = owned partToNode n := by
  rw [owned_apply hp, owned_eq_ownedBy, heq, ← hfrom, Function.update_eq_self]

theorem mem_owned_from : m.partId ∈ owned partToNode m.fromId :=
  mem_owned.mpr ⟨hp, hfrom⟩

end

end Migration

/-! ## When a move keeps a table right -/

namespace NodeVersions

variable {partToNode : List Int} {t r : NodeVersions} {m : Migration} {n : Int}

/-- If node `n` owns partitions, it has the least of their versions and the number at it. -/
def Tracked (partToNode : List Int) (t : NodeVersions) (n : Int) : Prop :=
  owned partToNode n ≠ [] →
    MinCount (owned partToNode n) t.part.val (t.node.val n) (t.count.val n)

theorem Tracked.congr {partToNode' : List Int} (h : t.Tracked partToNode n)
    (howned : owned partToNode' n = owned partToNode n) (hpart : r.part = t.part)
    (hnode : r.node.val n = t.node.val n) (hcount : r.count.val n = t.count.val n) :
    r.Tracked partToNode' n := by
  unfold Tracked
  rw [howned, hpart, hnode, hcount]
  exact h

/-- The giving node keeps a partition at its minimum, or finds the next one. -/
def GiveFits (partToNode : List Int) (t : NodeVersions) (m : Migration) : Prop :=
  1 < t.count.val m.fromId ∨ owned (m.apply partToNode) m.fromId = [] ∨
    ∃ q ∈ owned (m.apply partToNode) m.fromId, t.part.val q ≤ kNewMin

/-- The tables before the move, for the update table: the receiving node owns partitions, or its
entry is not behind. -/
def UpdateFits (partToNode : List Int) (t : NodeVersions) (m : Migration) : Prop :=
  if m.toId = m.fromId then 1 < t.count.val m.fromId
  else GiveFits partToNode t m ∧
    (owned partToNode m.toId ≠ [] ∨ t.part.val m.partId < t.node.val m.toId ∨
      (t.part.val m.partId = t.node.val m.toId ∧ t.count.val m.toId = 0))

/-- For the map table; where the versions are equal, the partition is counted at its own id. -/
def MapFits (partToNode : List Int) (t : NodeVersions) (m : Migration) : Prop :=
  if m.toId = m.fromId then
    t.node.val m.fromId < t.part.val m.partId ∨
      (1 < t.count.val m.fromId ∧ m.partId = m.toId) ∨
      (t.count.val m.fromId = 1 ∧ t.part.val m.partId ≤ kNewMin ∧ m.partId ≠ m.toId ∧
        owned partToNode m.partId = [])
  else
    (t.node.val m.fromId < t.part.val m.partId ∨ GiveFits partToNode t m) ∧
      (t.part.val m.partId < t.node.val m.toId ∨
        (t.node.val m.toId < t.part.val m.partId ∧ owned partToNode m.toId ≠ []) ∨
        (t.part.val m.partId = t.node.val m.toId ∧
          if m.partId = m.toId then owned partToNode m.toId ≠ [] ∨ t.count.val m.toId = 0
          else owned partToNode m.toId = [] ∧ t.count.val m.toId = 1 ∧
            owned (m.apply partToNode) m.partId = []))

section Move

variable (hp : m.partId ∈ partsOf partToNode) (hfrom : nodeOf partToNode m.partId = m.fromId)

include hp hfrom

theorem tracked_from_iff (h : t.Tracked partToNode m.fromId) (hne : m.toId ≠ m.fromId)
    (hv : t.node.val m.fromId = t.part.val m.partId) (hpart : r.part = t.part)
    (hnode : r.node.val m.fromId = (t.give (m.apply partToNode) m.fromId).node.val m.fromId)
    (hcount : r.count.val m.fromId = (t.give (m.apply partToNode) m.fromId).count.val m.fromId) :
    r.Tracked (m.apply partToNode) m.fromId ↔ GiveFits partToNode t m := by
  have hperm := Migration.owned_apply_from hp hfrom hne
  have hmin := (h (ne_nil_of_mem (Migration.mem_owned_from hp hfrom))).perm hperm
  unfold Tracked
  obtain ⟨hgn, hgc⟩ := give_self (m.apply partToNode) t m.fromId
  rw [hpart, hnode, hcount, hgn, hgc]
  exact hmin.tail_iff hv.symm kNewMin

theorem tracked_to_iff (h : t.Tracked partToNode m.toId) (hne : m.toId ≠ m.fromId)
    (hpart : r.part = t.part)
    (hnode : r.node.val m.toId = if t.part.val m.partId < t.node.val m.toId then
      t.part.val m.partId else t.node.val m.toId)
    (hcount : r.count.val m.toId = if t.part.val m.partId < t.node.val m.toId then 1
      else if t.part.val m.partId = t.node.val m.toId then t.count.val m.toId + 1
      else t.count.val m.toId) :
    r.Tracked (m.apply partToNode) m.toId ↔
      owned partToNode m.toId ≠ [] ∨ t.part.val m.partId < t.node.val m.toId ∨
        (t.part.val m.partId = t.node.val m.toId ∧ t.count.val m.toId = 0) := by
  have hperm := Migration.owned_apply_to hp hfrom hne
  have hnil : owned (m.apply partToNode) m.toId ≠ [] :=
    ne_nil_of_mem (hperm.mem_iff.mpr mem_cons_self)
  rw [← MinCount.cons_iff h, ← hnode, ← hcount]
  unfold Tracked
  rw [hpart]
  exact ⟨fun h => (h hnil).perm hperm, fun h _ => h.perm hperm.symm⟩

/-- The other nodes stay as they are. -/
theorem forall_tracked_iff (h : ∀ n, t.Tracked partToNode n) (hpart : r.part = t.part)
    (hother : ∀ n, n ≠ m.fromId → n ≠ m.toId →
      r.node.val n = t.node.val n ∧ r.count.val n = t.count.val n) :
    (∀ n, r.Tracked (m.apply partToNode) n) ↔
      r.Tracked (m.apply partToNode) m.fromId ∧ r.Tracked (m.apply partToNode) m.toId := by
  refine ⟨fun hall => ⟨hall _, hall _⟩, ?_⟩
  rintro ⟨hF, hT⟩ n
  by_cases hn : n = m.fromId
  · rwa [hn]
  by_cases hn' : n = m.toId
  · rwa [hn']
  obtain ⟨hnode, hcount⟩ := hother n hn hn'
  exact (h n).congr (Migration.owned_apply_other hp hfrom hn' hn) hpart hnode hcount

/-- A node that gives its only partition at the minimum to itself counts it twice. -/
theorem update_self_iff (h : ∀ n, t.Tracked partToNode n) (heq : m.toId = m.fromId)
    (hv : t.node.val m.fromId = t.part.val m.partId) :
    (∀ n, ((t.give (m.apply partToNode) m.fromId).takeUpdate m.toId m.partId).Tracked
      (m.apply partToNode) n) ↔ 1 < t.count.val m.fromId := by
  have howned := Migration.owned_apply_self hp hfrom heq
  have hmem := Migration.mem_owned_from hp hfrom
  have hmin := h m.fromId (ne_nil_of_mem hmem)
  obtain ⟨hgn, hgc⟩ := give_self (m.apply partToNode) t m.fromId
  obtain ⟨htn, htc⟩ := takeUpdate_self (t.give (m.apply partToNode) m.fromId) m.toId m.partId
  have hpart : ((t.give (m.apply partToNode) m.fromId).takeUpdate m.toId m.partId).part = t.part := by
    rw [takeUpdate_part, give_part]
  rw [give_part] at htn htc
  rw [heq] at htn htc hpart ⊢
  rw [howned m.fromId] at hgn hgc
  by_cases hk : 1 < t.count.val m.fromId
  · rw [if_pos hk] at hgn hgc
    rw [hgn, ← hv, if_neg (by omega)] at htn htc
    rw [if_pos rfl, hgc] at htc
    refine ⟨fun _ => hk, fun _ n => ?_⟩
    by_cases hn : n = m.fromId
    · subst hn
      exact (h _).congr (howned _) hpart htn (by omega)
    · have h₁ := takeUpdate_other (t.give (m.apply partToNode) m.fromId) m.partId hn
      have h₂ := give_other (m.apply partToNode) t hn
      exact (h n).congr (howned n) hpart (h₁.1.trans h₂.1) (h₁.2.trans h₂.2)
  · refine ⟨fun hall => ?_, fun hk' => absurd hk' hk⟩
    exfalso
    have hmin' := hall m.fromId (howned m.fromId ▸ ne_nil_of_mem hmem)
    rw [howned, hpart] at hmin'
    rw [if_neg hk] at hgn hgc
    rw [hmin.leastFrom_eq] at hgn hgc
    by_cases hcap : t.node.val m.fromId ≤ kNewMin
    · rw [if_pos hcap] at hgn hgc
      rw [hgn, ← hv, if_neg (by omega)] at htn htc
      rw [if_pos rfl, hgc] at htc
      have hcount := hmin'.count
      rw [htn, htc] at hcount
      omega
    · rw [if_neg hcap] at hgn
      rw [hgn, if_neg (by omega)] at htn
      obtain ⟨q, hq, hval⟩ := hmin'.exists_eq
      have := hmin.le q hq
      omega

/-- **A move and the update table.** -/
theorem update_move_iff (h : ∀ n, t.Tracked partToNode n)
    (hv : t.node.val m.fromId = t.part.val m.partId) :
    (∀ n, ((t.give (m.apply partToNode) m.fromId).takeUpdate m.toId m.partId).Tracked
      (m.apply partToNode) n) ↔ UpdateFits partToNode t m := by
  unfold UpdateFits
  by_cases heq : m.toId = m.fromId
  · rw [if_pos heq]
    exact update_self_iff hp hfrom h heq hv
  · rw [if_neg heq]
    obtain ⟨htn, htc⟩ := takeUpdate_self (t.give (m.apply partToNode) m.fromId) m.toId m.partId
    have hpart : ((t.give (m.apply partToNode) m.fromId).takeUpdate m.toId m.partId).part =
        t.part := by
      rw [takeUpdate_part, give_part]
    have hto := give_other (m.apply partToNode) t heq
    rw [give_part, hto.1] at htn
    rw [give_part, hto.1, hto.2] at htc
    have hgive := takeUpdate_other (t.give (m.apply partToNode) m.fromId) m.partId
      (Ne.symm heq)
    rw [forall_tracked_iff hp hfrom h hpart ?_, tracked_from_iff hp hfrom (h _) heq hv hpart hgive.1
      hgive.2, tracked_to_iff hp hfrom (h _) heq hpart htn htc]
    intro n hn hn'
    have h₁ := takeUpdate_other (t.give (m.apply partToNode) m.fromId) m.partId hn'
    have h₂ := give_other (m.apply partToNode) t hn
    exact ⟨h₁.1.trans h₂.1, h₁.2.trans h₂.2⟩

/-! ### The map table -/

theorem le_part (h : ∀ n, t.Tracked partToNode n) :
    t.node.val m.fromId ≤ t.part.val m.partId := by
  have hmem := Migration.mem_owned_from hp hfrom
  exact (h _ (ne_nil_of_mem hmem)).le _ hmem

theorem tracked_map_from_iff (h : ∀ n, t.Tracked partToNode n) (hne : m.toId ≠ m.fromId)
    (hpart : r.part = t.part)
    (hnode : r.node.val m.fromId =
      (t.giveMap (m.apply partToNode) m.fromId m.partId).node.val m.fromId)
    (hcount : r.count.val m.fromId =
      (t.giveMap (m.apply partToNode) m.fromId m.partId).count.val m.fromId) :
    r.Tracked (m.apply partToNode) m.fromId ↔
      t.node.val m.fromId < t.part.val m.partId ∨ GiveFits partToNode t m := by
  rcases Int.lt_or_eq_of_le (le_part hp hfrom h) with hlt | heq
  · rw [giveMap_above hlt] at hnode hcount
    refine ⟨fun _ => .inl hlt, fun _ hnil => ?_⟩
    have hperm := Migration.owned_apply_from hp hfrom hne
    have hmin := (h _ (ne_nil_of_mem (Migration.mem_owned_from hp hfrom))).perm hperm
    rw [hpart, hnode, hcount]
    apply hmin.tail_above
    omega
  · rw [giveMap_at heq] at hnode hcount
    rw [tracked_from_iff hp hfrom (h _) hne heq hpart hnode hcount]
    exact ⟨.inr, fun hor => hor.resolve_left (by omega)⟩

/-- However the giving node finds its minimum, it counts its partitions at it. -/
theorem giveMap_count (h : ∀ n, t.Tracked partToNode n) (hne : m.toId ≠ m.fromId)
    (hn : n ≠ m.toId) (hnil : owned (m.apply partToNode) n ≠ []) :
    (t.giveMap (m.apply partToNode) m.fromId m.partId).count.val n =
      (owned (m.apply partToNode) n).countP fun q =>
        t.part.val q = (t.giveMap (m.apply partToNode) m.fromId m.partId).node.val n := by
  by_cases hnf : n = m.fromId
  · subst hnf
    have hperm := Migration.owned_apply_from hp hfrom hne
    have hmin := (h _ (ne_nil_of_mem (Migration.mem_owned_from hp hfrom))).perm hperm
    rcases Int.lt_or_eq_of_le (le_part hp hfrom h) with hlt | heq
    · rw [giveMap_above hlt]
      exact (hmin.tail_above (by omega)).count
    · rw [giveMap_at heq]
      obtain ⟨hgn, hgc⟩ := give_self (m.apply partToNode) t m.fromId
      rw [hgn, hgc]
      by_cases hk : 1 < t.count.val m.fromId
      · rw [if_pos hk, if_pos hk]
        exact (hmin.tail_at heq.symm hk).count
      · rw [if_neg hk, if_neg hk]
  · obtain ⟨hgn, hgc⟩ := giveMap_other (m.apply partToNode) t m.partId hnf
    have howned := Migration.owned_apply_other hp hfrom hn hnf
    rw [howned] at hnil ⊢
    rw [hgn, hgc]
    exact (h n hnil).count

/-- The partition arrives at its node's version and is counted for another one. -/
theorem map_stray_iff (h : ∀ n, t.Tracked partToNode n) (hne : m.toId ≠ m.fromId)
    (hv : t.part.val m.partId = t.node.val m.toId) (hpt : m.partId ≠ m.toId) :
    (∀ n, ((t.giveMap (m.apply partToNode) m.fromId m.partId).takeMap m.toId m.partId).Tracked
      (m.apply partToNode) n) ↔
      (t.node.val m.fromId < t.part.val m.partId ∨ GiveFits partToNode t m) ∧
        owned partToNode m.toId = [] ∧ t.count.val m.toId = 1 ∧
        owned (m.apply partToNode) m.partId = [] := by
  set g := t.giveMap (m.apply partToNode) m.fromId m.partId with hg
  have hgpart : g.part = t.part := giveMap_part
  have hgto := giveMap_other (m.apply partToNode) t m.partId hne
  rw [takeMap_at (by rw [hgpart, hgto.1]; exact hv)]
  set r : NodeVersions := { g.look m.toId with count := g.count.set m.partId (g.count.val m.partId + 1) }
    with hr
  have hpart : r.part = t.part := hgpart
  have hnode : ∀ n, r.node.val n = g.node.val n := fun n => congrFun (look_val g m.toId) n
  have hcount : ∀ n, n ≠ m.partId → r.count.val n = g.count.val n :=
    fun n hn => val_set_ne _ _ hn
  have hperm := Migration.owned_apply_to hp hfrom hne
  have hnil : owned (m.apply partToNode) m.toId ≠ [] :=
    ne_nil_of_mem (hperm.mem_iff.mpr mem_cons_self)
  have htoIff : r.Tracked (m.apply partToNode) m.toId ↔
      owned partToNode m.toId = [] ∧ t.count.val m.toId = 1 := by
    rw [← MinCount.cons_uncounted_iff (h m.toId) hv]
    unfold Tracked
    rw [hpart, hnode, hcount _ hpt.symm, hgto.1, hgto.2]
    exact ⟨fun h => (h hnil).perm hperm, fun h _ => h.perm hperm.symm⟩
  -- one too many at the node that has the id of the partition, if it owns anything
  have hpartIff : r.Tracked (m.apply partToNode) m.partId ↔
      owned (m.apply partToNode) m.partId = [] := by
    constructor
    · intro hT
      by_contra hne'
      have hc := (hT hne').count
      have hc' := giveMap_count hp hfrom h hne hpt hne'
      rw [← hg] at hc'
      rw [hpart, hnode, show r.count.val m.partId = g.count.val m.partId + 1 from
        val_set_self _ _ _] at hc
      omega
    · exact fun hnil hne' => absurd hnil hne'
  have hfromIff : m.fromId ≠ m.partId → (r.Tracked (m.apply partToNode) m.fromId ↔
      t.node.val m.fromId < t.part.val m.partId ∨ GiveFits partToNode t m) :=
    fun hfp => tracked_map_from_iff hp hfrom h hne hpart (hnode _) (hcount _ hfp)
  constructor
  · intro hall
    have hP := hpartIff.mp (hall _)
    obtain ⟨hnil', hone⟩ := htoIff.mp (hall _)
    refine ⟨?_, hnil', hone, hP⟩
    by_cases hfp : m.fromId = m.partId
    · exact .inr (.inr (.inl (hfp ▸ hP)))
    · exact (hfromIff hfp).mp (hall _)
  · rintro ⟨hF, hnil', hone, hP⟩ n
    by_cases hnp : n = m.partId
    · subst hnp
      exact hpartIff.mpr hP
    by_cases hnt : n = m.toId
    · subst hnt
      exact htoIff.mpr ⟨hnil', hone⟩
    by_cases hnf : n = m.fromId
    · subst hnf
      exact (hfromIff hnp).mpr hF
    · have hgn := giveMap_other (m.apply partToNode) t m.partId hnf
      exact (h n).congr (Migration.owned_apply_other hp hfrom hnt hnf) hpart
        ((hnode n).trans hgn.1) ((hcount n hnp).trans hgn.2)

/-- The partition is counted where it should be. -/
theorem map_counted_iff (h : ∀ n, t.Tracked partToNode n) (hne : m.toId ≠ m.fromId)
    (hv : t.part.val m.partId ≠ t.node.val m.toId ∨ m.partId = m.toId) :
    (∀ n, ((t.giveMap (m.apply partToNode) m.fromId m.partId).takeMap m.toId m.partId).Tracked
      (m.apply partToNode) n) ↔
      (t.node.val m.fromId < t.part.val m.partId ∨ GiveFits partToNode t m) ∧
        (owned partToNode m.toId ≠ [] ∨ t.part.val m.partId < t.node.val m.toId ∨
          (t.part.val m.partId = t.node.val m.toId ∧ t.count.val m.toId = 0)) := by
  set g := t.giveMap (m.apply partToNode) m.fromId m.partId with hg
  have hgpart : g.part = t.part := giveMap_part
  have hgto := giveMap_other (m.apply partToNode) t m.partId hne
  rw [takeMap_eq (by rw [hgpart, hgto.1]; exact hv)]
  obtain ⟨htn, htc⟩ := takeUpdate_self g m.toId m.partId
  have hpart : (g.takeUpdate m.toId m.partId).part = t.part := takeUpdate_part.trans hgpart
  rw [hgpart, hgto.1] at htn
  rw [hgpart, hgto.1, hgto.2] at htc
  have hgive := takeUpdate_other g m.partId (Ne.symm hne)
  rw [forall_tracked_iff hp hfrom h hpart ?_, tracked_map_from_iff hp hfrom h hne hpart hgive.1
    hgive.2, tracked_to_iff hp hfrom (h _) hne hpart htn htc]
  intro n hn hn'
  have h₁ := takeUpdate_other g m.partId hn'
  have h₂ := giveMap_other (m.apply partToNode) t m.partId hn
  exact ⟨h₁.1.trans h₂.1, h₁.2.trans h₂.2⟩

/-- A node that gives a partition to itself. -/
theorem map_self_iff (h : ∀ n, t.Tracked partToNode n) (heq : m.toId = m.fromId) :
    (∀ n, ((t.giveMap (m.apply partToNode) m.fromId m.partId).takeMap m.toId m.partId).Tracked
      (m.apply partToNode) n) ↔
      t.node.val m.fromId < t.part.val m.partId ∨
        (1 < t.count.val m.fromId ∧ m.partId = m.toId) ∨
        (t.count.val m.fromId = 1 ∧ t.part.val m.partId ≤ kNewMin ∧ m.partId ≠ m.toId ∧
          owned partToNode m.partId = []) := by
  have howned := Migration.owned_apply_self hp hfrom heq
  have hmem := Migration.mem_owned_from hp hfrom
  have hnil := ne_nil_of_mem hmem
  have hmin := h m.fromId hnil
  rw [heq]
  rcases Int.lt_or_eq_of_le (le_part hp hfrom h) with hlt | hv
  · -- above the minimum nothing happens
    rw [giveMap_above hlt, takeMap_eq (.inl (by omega))]
    refine ⟨fun _ => .inl hlt, fun _ n => ?_⟩
    obtain ⟨htn, htc⟩ := takeUpdate_self t m.fromId m.partId
    rw [if_neg (by omega)] at htn htc
    rw [if_neg (by omega)] at htc
    by_cases hn : n = m.fromId
    · subst hn
      exact (h _).congr (howned _) takeUpdate_part htn htc
    · have hother := takeUpdate_other t m.partId hn
      exact (h n).congr (howned n) takeUpdate_part hother.1 hother.2
  rw [giveMap_at hv]
  set g := t.give (m.apply partToNode) m.fromId with hg
  have hgpart : g.part = t.part := give_part
  obtain ⟨hgn, hgc⟩ := give_self (m.apply partToNode) t m.fromId
  rw [← hg, howned m.fromId, hmin.leastFrom_eq] at hgn hgc
  by_cases hcap : ¬ 1 < t.count.val m.fromId ∧ kNewMin < t.node.val m.fromId
  · -- the search for the minimum stops below it
    obtain ⟨hk, hcap⟩ := hcap
    rw [if_neg hk, if_neg (by omega)] at hgn
    rw [takeMap_eq (.inl (by rw [hgpart]; omega))]
    constructor
    · intro hall
      obtain ⟨htn, -⟩ := takeUpdate_self g m.fromId m.partId
      have hmin' := hall m.fromId (howned m.fromId ▸ hnil)
      rw [howned, takeUpdate_part, hgpart, htn, hgpart, hgn, if_neg (by omega)] at hmin'
      obtain ⟨q, hq, hval⟩ := hmin'.exists_eq
      have := hmin.le q hq
      omega
    · rintro (hlt | ⟨hk', -⟩ | ⟨-, hle, -⟩)
      · omega
      · exact absurd hk' hk
      · omega
  -- the minimum stays, and the partition is counted at its own id
  have hgnode : g.node.val m.fromId = t.node.val m.fromId := by
    rw [hgn]
    split
    · rfl
    · rw [if_pos (by omega)]
  rw [takeMap_at (by rw [hgpart, hgnode]; exact hv.symm)]
  set r : NodeVersions :=
    { g.look m.fromId with count := g.count.set m.partId (g.count.val m.partId + 1) } with hr
  have hpart : r.part = t.part := hgpart
  have hnode : ∀ n, r.node.val n = t.node.val n := by
    intro n
    have hlook : r.node.val n = g.node.val n := congrFun (look_val g m.fromId) n
    by_cases hn : n = m.fromId
    · rw [hlook, hn, hgnode]
    · rw [hlook, (give_other (m.apply partToNode) t hn).1]
  have htracked : ∀ n, owned partToNode n ≠ [] →
      (r.Tracked (m.apply partToNode) n ↔ r.count.val n = t.count.val n) := by
    intro n hne
    have hmin := h n hne
    unfold Tracked
    rw [howned, hpart, hnode]
    constructor
    · intro hT
      rw [(hT hne).count, hmin.count]
    · intro hc _
      rwa [hc]
  have hcount : ∀ n, r.count.val n = g.count.val n + if n = m.partId then 1 else 0 := by
    intro n
    show (g.count.set m.partId _).val n = _
    rw [val_set]
    split
    · next hn => rw [hn]
    · omega
  have hgfrom : g.count.val m.fromId =
      if 1 < t.count.val m.fromId then t.count.val m.fromId - 1 else t.count.val m.fromId := by
    rw [hgc]
    split
    · rfl
    · rw [if_pos (by omega)]
      exact hmin.count.symm
  have hpos := hmin.pos
  constructor
  · intro hall
    have hF := (htracked _ hnil).mp (hall _)
    rw [hcount, hgfrom] at hF
    by_cases hk : 1 < t.count.val m.fromId
    · rw [if_pos hk] at hF
      split at hF
      · next hpf => exact .inr (.inl ⟨hk, hpf.symm⟩)
      · omega
    · rw [if_neg hk] at hF
      split at hF
      · omega
      · next hpf =>
        refine .inr (.inr ⟨by omega, by omega, Ne.symm hpf, ?_⟩)
        by_contra hne
        have hP := (htracked _ hne).mp (hall _)
        rw [hcount, if_pos rfl, (give_other (m.apply partToNode) t (Ne.symm hpf)).2] at hP
        omega
  · intro hor n hne
    rw [howned] at hne
    refine (htracked n hne).mpr ?_ (howned n ▸ hne)
    rw [hcount]
    rcases hor with hlt | ⟨hk, hpf⟩ | ⟨hk, -, hpf, hnone⟩
    · omega
    · by_cases hn : n = m.fromId
      · rw [hn, hgfrom, if_pos hk, if_pos hpf.symm]
        omega
      · rw [(give_other (m.apply partToNode) t hn).2, if_neg (by rwa [hpf])]
        omega
    · have hnp : n ≠ m.partId := by
        intro he
        exact hne (he ▸ hnone)
      by_cases hn : n = m.fromId
      · rw [if_neg hnp, hn, hgfrom, if_neg (by omega)]
        omega
      · rw [(give_other (m.apply partToNode) t hn).2, if_neg hnp]
        omega

/-- **A move and the map table.** -/
theorem map_move_iff (h : ∀ n, t.Tracked partToNode n) :
    (∀ n, ((t.giveMap (m.apply partToNode) m.fromId m.partId).takeMap m.toId m.partId).Tracked
      (m.apply partToNode) n) ↔ MapFits partToNode t m := by
  unfold MapFits
  by_cases heq : m.toId = m.fromId
  · rw [if_pos heq]
    exact map_self_iff hp hfrom h heq
  rw [if_neg heq]
  by_cases hstray : t.part.val m.partId = t.node.val m.toId ∧ m.partId ≠ m.toId
  · obtain ⟨hv, hpt⟩ := hstray
    rw [map_stray_iff hp hfrom h heq hv hpt, if_neg hpt]
    refine and_congr_right fun _ => ⟨fun hT => .inr (.inr ⟨hv, hT⟩), ?_⟩
    rintro (hlt | ⟨hlt, -⟩ | ⟨-, hT⟩)
    · omega
    · omega
    · exact hT
  · have hv : t.part.val m.partId ≠ t.node.val m.toId ∨ m.partId = m.toId := by
      by_cases hpt : m.partId = m.toId
      · exact .inr hpt
      · exact .inl fun hv => hstray ⟨hv, hpt⟩
    rw [map_counted_iff hp hfrom h heq hv]
    refine and_congr_right fun _ => ?_
    rcases Int.lt_trichotomy (t.part.val m.partId) (t.node.val m.toId) with hlt | hat | hgt
    · exact ⟨fun _ => .inl hlt, fun _ => .inr (.inl hlt)⟩
    · have hpt := hv.resolve_left (not_not.mpr hat)
      rw [if_pos hpt]
      constructor
      · rintro (hne | hlt | ⟨-, hk⟩)
        · exact .inr (.inr ⟨hat, .inl hne⟩)
        · omega
        · exact .inr (.inr ⟨hat, .inr hk⟩)
      · rintro (hlt | ⟨hlt, -⟩ | ⟨-, hne | hk⟩)
        · omega
        · omega
        · exact .inl hne
        · exact .inr (.inr ⟨hat, hk⟩)
    · constructor
      · rintro (hne | hlt | ⟨hat, -⟩)
        · exact .inr (.inl ⟨hgt, hne⟩)
        · omega
        · omega
      · rintro (hlt | ⟨-, hne⟩ | ⟨hat, -⟩)
        · omega
        · exact .inl hne
        · omega

end Move

/-! ### Entries -/

theorem mem_keys_set {t : Table Int Int} {k k' v : Int} :
    k' ∈ (t.set k v).keys ↔ k' = k ∨ k' ∈ t.keys := by
  unfold Table.set
  simp only
  split
  · next h =>
    refine ⟨.inr, ?_⟩
    rintro (rfl | hk)
    · exact h
    · exact hk
  · rw [mem_append, mem_singleton]
    exact or_comm

theorem give_keys {partToNode : List Int} {k fromId : Int} (hk : k ∈ t.node.keys) :
    k ∈ (t.give partToNode fromId).node.keys := by
  unfold give
  split
  · exact hk
  · exact mem_keys_set.mpr (.inr hk)

theorem giveMap_keys {partToNode : List Int} {k fromId p : Int} (hk : k ∈ t.node.keys) :
    k ∈ (t.giveMap partToNode fromId p).node.keys := by
  unfold giveMap
  split
  · exact give_keys hk
  · exact hk

theorem look_keys {k toId : Int} (hk : k = toId ∨ k ∈ t.node.keys) :
    k ∈ (t.look toId).node.keys :=
  mem_keys_set.mpr hk

theorem takeUpdate_keys {k toId p : Int} (hk : k = toId ∨ k ∈ t.node.keys) :
    k ∈ (t.takeUpdate toId p).node.keys := by
  unfold takeUpdate
  simp only
  split
  · exact mem_keys_set.mpr (.inr (look_keys hk))
  · split <;> exact look_keys hk

theorem takeMap_keys {k toId p : Int} (hk : k = toId ∨ k ∈ t.node.keys) :
    k ∈ (t.takeMap toId p).node.keys := by
  unfold takeMap
  simp only
  split
  · exact mem_keys_set.mpr (.inr (look_keys hk))
  · split <;> exact look_keys hk

theorem takeMap_part {toId p : Int} : (t.takeMap toId p).part = t.part := by
  unfold takeMap
  simp only
  split
  · rfl
  · split <;> rfl

/-- The tables of one collection: every node that owns partitions has an entry, which is the least
of their versions with the number of partitions at it. -/
structure Tracks (partToNode : List Int) (t : NodeVersions) : Prop where
  partKeys : t.part.keys = partsOf partToNode
  owners : ∀ n ∈ partToNode, n ∈ t.node.keys
  tracked : ∀ n, t.Tracked partToNode n

theorem tracks_apply_iff (hpart : r.part.keys = t.part.keys)
    (hkeys : ∀ n, n = m.toId ∨ n ∈ t.node.keys → n ∈ r.node.keys) (h : t.Tracks partToNode) :
    r.Tracks (m.apply partToNode) ↔ ∀ n, r.Tracked (m.apply partToNode) n := by
  refine ⟨Tracks.tracked, fun hall => ⟨?_, fun n hn => ?_, hall⟩⟩
  · rw [hpart, h.partKeys, Migration.partsOf_apply]
  · rcases mem_or_eq_of_mem_set hn with hn | rfl
    · exact hkeys n (.inr (h.owners n hn))
    · exact hkeys _ (.inl rfl)

end NodeVersions

end Tangram
