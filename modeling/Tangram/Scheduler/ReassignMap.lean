import Tangram.Scheduler.Scheduler

/-!
# The tables after a reassignment

After a failure that only lost map partitions, `ControlManager::ReassignMap` gives
them to live nodes and patches the map tables turn by turn
(`NodeVersions.reassign`).  A turn for a node whose version is that of the plan
counts at the place of the partition instead of the node; a turn for a node that
owned nothing and whose version is lower leaves it untracked.

The books with the stray counts taken off stay right as long as no turn of the
second kind happens (`Books.foldl_reassign`); so the tables are right in the end if
and only if there was none and the stray counts cancel at every live node.
-/

namespace Tangram

open StepRun List Function NodeVersions

/-! ## Owners -/

/-- The partitions of `parts` that are on node `n`. -/
def ownedBy (parts : List Int) (owner : Int → Int) (n : Int) : List Int :=
  parts.filter fun p => owner p = n

theorem owned_eq_ownedBy (partToNode : List Int) (n : Int) :
    owned partToNode n = ownedBy (partsOf partToNode) (nodeOf partToNode) n := rfl

section Owners

variable {parts : List Int} {owner owner' : Int → Int} {p n n' : Int}

theorem ownedBy_congr (h : ∀ p ∈ parts, owner p = owner' p) (n : Int) :
    ownedBy parts owner n = ownedBy parts owner' n := by
  apply filter_congr
  intro p hp
  rw [h p hp]

/-- The node that a partition goes to. -/
theorem ownedBy_arrive (hnd : parts.Nodup) (hp : p ∈ parts) (hne : owner p ≠ n) :
    (ownedBy parts (update owner p n) n).Perm (p :: ownedBy parts owner n) := by
  have hparts := perm_cons_erase hp
  have hrest : ownedBy (parts.erase p) (update owner p n) n =
      ownedBy (parts.erase p) owner n := by
    apply ownedBy_congr
    intro q hq
    have hqp : q ≠ p := by
      rintro rfl
      exact hnd.not_mem_erase hq
    exact update_of_ne hqp _ _
  have h₁ := hparts.filter fun q => update owner p n q = n
  have h₂ := hparts.filter fun q => owner q = n
  rw [filter_cons_of_pos (by simp)] at h₁
  rw [filter_cons_of_neg (by simpa using hne)] at h₂
  show (parts.filter _).Perm (p :: parts.filter _)
  refine h₁.trans ((List.Perm.of_eq ?_).trans (h₂.symm.cons p))
  exact congrArg _ hrest

/-- The node that a partition leaves. -/
theorem ownedBy_leave (hnd : parts.Nodup) (hp : p ∈ parts) (hne : n ≠ owner p) :
    (ownedBy parts owner (owner p)).Perm
      (p :: ownedBy parts (update owner p n) (owner p)) := by
  have h := @ownedBy_arrive parts (update owner p n) p (owner p) hnd hp
    (by rwa [update_self])
  rwa [update_idem, update_eq_self] at h

theorem ownedBy_other (hn : n' ≠ n) (hp : owner p ≠ n') :
    ownedBy parts (update owner p n) n' = ownedBy parts owner n' := by
  apply filter_congr
  intro q _
  by_cases hq : q = p
  · subst hq
    rw [update_self, decide_eq_decide]
    exact ⟨fun h => absurd h.symm hn, fun h => absurd h hp⟩
  · rw [update_of_ne hq]

end Owners

/-! ## One turn -/

namespace NodeVersions

variable {t : NodeVersions} {version p n : Int}

/-- The version of the partition is brought to that of the plan. -/
theorem reassign_part (t : NodeVersions) (version p n : Int) :
    (t.reassign version p n).part.val = update t.part.val p version := by
  unfold reassign
  simp only
  by_cases hv : t.part.val p = version
  · have hval : t.part.val = update t.part.val p version := by
      rw [← hv, update_eq_self]
    rw [if_neg (not_not.mpr hv)]
    split
    · exact hval
    · split <;> exact hval
  · rw [if_pos hv]
    split
    · rfl
    · split <;> rfl

theorem reassign_partKeys (hp : p ∈ t.part.keys) :
    (t.reassign version p n).part.keys = t.part.keys := by
  have hkeys := Table.keys_set_of_mem t.part version hp
  unfold reassign
  simp only
  by_cases hv : t.part.val p = version
  · rw [if_neg (not_not.mpr hv)]
    split
    · rfl
    · split <;> rfl
  · rw [if_pos hv]
    split
    · exact hkeys
    · split <;> exact hkeys

/-- The node is above the version of the plan: it is counted anew. -/
theorem reassign_below (h : version < t.node.val n) :
    (t.reassign version p n).count = t.count.set n 1 ∧
      (t.reassign version p n).node = t.node.set n version := by
  unfold reassign
  simp only
  by_cases hv : t.part.val p = version
  · rw [if_neg (not_not.mpr hv), hv, if_pos h]
    exact ⟨rfl, rfl⟩
  · rw [if_pos hv, Table.val_set_self, if_pos h]
    exact ⟨rfl, rfl⟩

/-- It is at the version of the plan: the turn counts at the place of the partition. -/
theorem reassign_at (h : version = t.node.val n) :
    (t.reassign version p n).count = t.count.set p (t.count.val p + 1) ∧
      (t.reassign version p n).node = t.node := by
  have hlt : ¬ version < t.node.val n := by omega
  unfold reassign
  simp only
  by_cases hv : t.part.val p = version
  · rw [if_neg (not_not.mpr hv), hv, if_neg hlt, if_pos h]
    exact ⟨rfl, rfl⟩
  · rw [if_pos hv, Table.val_set_self, if_neg hlt, if_pos h]
    exact ⟨rfl, rfl⟩

/-- It is below: nothing is counted. -/
theorem reassign_above (h : t.node.val n < version) :
    (t.reassign version p n).count = t.count ∧ (t.reassign version p n).node = t.node := by
  have hlt : ¬ version < t.node.val n := by omega
  have hne : ¬ version = t.node.val n := by omega
  unfold reassign
  simp only
  by_cases hv : t.part.val p = version
  · rw [if_neg (not_not.mpr hv), hv, if_neg hlt, if_neg hne]
    exact ⟨rfl, rfl⟩
  · rw [if_pos hv, Table.val_set_self, if_neg hlt, if_neg hne]
    exact ⟨rfl, rfl⟩

theorem reassign_node (t : NodeVersions) (version p n : Int) :
    (t.reassign version p n).node.val =
      if version < t.node.val n then update t.node.val n version else t.node.val := by
  rcases Int.lt_trichotomy version (t.node.val n) with h | h | h
  · rw [if_pos h, (reassign_below h).2]
    rfl
  · rw [if_neg (by omega), (reassign_at h).2]
  · rw [if_neg (by omega), (reassign_above h).2]

end NodeVersions

/-! ## Stray counts -/

/-- What the turns count at the wrong place: how far the count of each node is too high, since it
was last set.  A partition `p` that goes to node `n` at the version of the plan is counted for `p`
and is missing for `n`. -/
def strays (version : Int) : (Int → Int) → List (Int × Int) → (Int → Int) → Int → Int
  | _, [], b => b
  | node, (p, n) :: rest, b =>
    if version < node n then
      strays version (Function.update node n version) rest (Function.update b n 0)
    else if version = node n then
      strays version node rest fun k =>
        b k + (if k = p then 1 else 0) - (if k = n then 1 else 0)
    else strays version node rest b

/-- The tables are right for the live nodes, up to `b` in the counts. -/
structure Books (live parts : List Int) (owner : Int → Int) (t : NodeVersions) (b : Int → Int) :
    Prop where
  none : ∀ n ∈ live, ownedBy parts owner n = [] → t.count.val n - b n = 0
  some : ∀ n ∈ live, ownedBy parts owner n ≠ [] →
    MinCount (ownedBy parts owner n) t.part.val (t.node.val n) (t.count.val n - b n)

section Turns

variable {live parts : List Int} {owner : Int → Int} {t : NodeVersions} {b : Int → Int}
  {version p n : Int}

/-- Nothing changes for a node that neither gets the partition nor has a stray count. -/
theorem Books.other (h : Books live parts owner t b) (hp : owner p ∉ live) {t' : NodeVersions}
    {b' : Int → Int} {k : Int} (hk : k ∈ live) (hkn : k ≠ n)
    (hpart : t'.part.val = update t.part.val p version)
    (hnode : t'.node.val k = t.node.val k)
    (hcount : t'.count.val k - b' k = t.count.val k - b k) :
    (ownedBy parts (update owner p n) k = [] → t'.count.val k - b' k = 0) ∧
      (ownedBy parts (update owner p n) k ≠ [] →
        MinCount (ownedBy parts (update owner p n) k) t'.part.val (t'.node.val k)
          (t'.count.val k - b' k)) := by
  have hpk : owner p ≠ k := fun he => hp (he ▸ hk)
  rw [ownedBy_other hkn hpk, hcount, hnode, hpart]
  refine ⟨h.none k hk, fun hne => (h.some k hk hne).congr fun q hq => ?_⟩
  have hqp : q ≠ p := by
    rintro rfl
    exact hpk (of_decide_eq_true (mem_filter.mp hq).2)
  exact (update_of_ne hqp _ _).symm

/-- The partitions that the receiving node had keep their versions. -/
theorem Books.kept (hp : owner p ≠ n) {q : Int} (hq : q ∈ ownedBy parts owner n) :
    update t.part.val p version q = t.part.val q := by
  have hqp : q ≠ p := by
    rintro rfl
    exact hp (of_decide_eq_true (mem_filter.mp hq).2)
  exact update_of_ne hqp _ _

/-- **One turn.** -/
theorem Books.reassign (h : Books live parts owner t b) (hnd : parts.Nodup) (hpart : p ∈ parts)
    (hp : owner p ∉ live) (hn : n ∈ live)
    (hfresh : ownedBy parts owner n = [] → version ≤ t.node.val n) :
    Books live parts (update owner p n) (t.reassign version p n)
      (if version < t.node.val n then update b n 0
        else if version = t.node.val n then fun k =>
          b k + (if k = p then 1 else 0) - (if k = n then 1 else 0)
        else b) := by
  have hpn : owner p ≠ n := fun he => hp (he ▸ hn)
  have harrive := ownedBy_arrive hnd hpart hpn
  have hval := reassign_part t version p n
  have hself : update t.part.val p version p = version := update_self _ _ _
  have hnil : ownedBy parts (update owner p n) n ≠ [] :=
    ne_nil_of_mem (harrive.mem_iff.mpr mem_cons_self)
  -- the receiving node, given its new minimum over the partition and the old ones
  have hnode : ∀ {t' : NodeVersions} {b' : Int → Int},
      (∀ k ∈ live, k ≠ n → (ownedBy parts (update owner p n) k = [] →
        t'.count.val k - b' k = 0) ∧ (ownedBy parts (update owner p n) k ≠ [] →
        MinCount (ownedBy parts (update owner p n) k) t'.part.val (t'.node.val k)
          (t'.count.val k - b' k))) →
      MinCount (p :: ownedBy parts owner n) t'.part.val (t'.node.val n) (t'.count.val n - b' n) →
      Books live parts (update owner p n) t' b' := by
    intro t' b' hothers hmin
    refine ⟨fun k hk ho => ?_, fun k hk ho => ?_⟩
    · by_cases hkn : k = n
      · exact absurd (hkn ▸ ho) hnil
      · exact (hothers k hk hkn).1 ho
    · by_cases hkn : k = n
      · rw [hkn]
        exact hmin.perm harrive.symm
      · exact (hothers k hk hkn).2 ho
  rcases Int.lt_trichotomy version (t.node.val n) with hlt | heq | hgt
  · obtain ⟨hcount, hnodeT⟩ := reassign_below (p := p) hlt
    rw [if_pos hlt]
    apply hnode
    · intro k hk hkn
      apply h.other hp hk hkn hval
      · rw [hnodeT, Table.val_set_ne _ _ hkn]
      · rw [hcount, Table.val_set_ne _ _ hkn, update_of_ne hkn]
    · rw [hcount, hnodeT, hval, Table.val_set_self, Table.val_set_self, update_self]
      have hbelow : ∀ q ∈ ownedBy parts owner n, update t.part.val p version p <
          update t.part.val p version q := by
        intro q hq
        rw [hself, Books.kept hpn hq]
        have := (h.some n hn (ne_nil_of_mem hq)).le q hq
        omega
      have := MinCount.cons_below hbelow
      rwa [hself] at this
  · obtain ⟨hcount, hnodeT⟩ := reassign_at (p := p) heq
    rw [if_neg (by omega), if_pos heq]
    have hdiff : ∀ k, (t.reassign version p n).count.val k =
        t.count.val k + if k = p then 1 else 0 := by
      intro k
      rw [hcount, Table.val_set]
      by_cases hkp : k = p
      · subst hkp
        simp
      · simp [hkp]
    apply hnode
    · intro k hk hkn
      apply h.other hp hk hkn hval
      · rw [hnodeT]
      · rw [hdiff, if_neg hkn]
        omega
    · have hcnt : (t.reassign version p n).count.val n -
          (b n + (if n = p then 1 else 0) - (if n = n then 1 else 0)) = t.count.val n - b n + 1 := by
        rw [hdiff, if_pos rfl]
        omega
      rw [hcnt, hnodeT, hval]
      by_cases ho : ownedBy parts owner n = []
      · have hone := MinCount.cons_below (f := update t.part.val p version) (a := p) (l := [])
          fun q hq => absurd hq not_mem_nil
        rw [ho, h.none n hn ho, Int.zero_add, ← heq]
        rwa [hself] at hone
      · refine MinCount.cons_at ((h.some n hn ho).congr fun q hq => (Books.kept hpn hq).symm) ?_
        rw [hself, heq]
  · obtain ⟨hcount, hnodeT⟩ := reassign_above (p := p) hgt
    rw [if_neg (by omega), if_neg (by omega)]
    apply hnode
    · intro k hk hkn
      apply h.other hp hk hkn hval
      · rw [hnodeT]
      · rw [hcount]
    · rw [hcount, hnodeT, hval]
      have ho : ownedBy parts owner n ≠ [] := by
        intro ho
        have := hfresh ho
        omega
      refine MinCount.cons_above ((h.some n hn ho).congr fun q hq => (Books.kept hpn hq).symm) ?_
      rw [hself]
      exact hgt

/-- **All turns.**  The partitions go from dead to live nodes, and none to a node that owns nothing
and is behind. -/
theorem Books.foldl_reassign (version : Int) (rs : List (Int × Int)) (hnd : parts.Nodup)
    (hrs : ∀ r ∈ rs, r.1 ∈ parts ∧ owner r.1 ∉ live ∧ r.2 ∈ live)
    (hone : (rs.map Prod.fst).Nodup)
    (hfresh : ∀ r ∈ rs, ownedBy parts owner r.2 = [] → version ≤ t.node.val r.2)
    (h : Books live parts owner t b) :
    Books live parts (rs.foldl (fun o r => update o r.1 r.2) owner)
      (rs.foldl (fun t r => t.reassign version r.1 r.2) t) (strays version t.node.val rs b) := by
  induction rs generalizing owner t b with
  | nil => exact h
  | cons r rest ih =>
    obtain ⟨p, n⟩ := r
    obtain ⟨hp, hdead, hn⟩ : p ∈ parts ∧ owner p ∉ live ∧ n ∈ live := hrs (p, n) mem_cons_self
    obtain ⟨hpone, hone⟩ := nodup_cons.mp hone
    have hstep := h.reassign hnd hp hdead hn (hfresh (p, n) mem_cons_self)
    have hnode := reassign_node t version p n
    have hrs' : ∀ r ∈ rest, r.1 ∈ parts ∧ update owner p n r.1 ∉ live ∧ r.2 ∈ live := by
      intro r hr
      have hne : r.1 ≠ p := by
        intro he
        exact hpone (mem_map.mpr ⟨r, hr, he⟩)
      rw [update_of_ne hne]
      exact hrs r (mem_cons_of_mem _ hr)
    have hfresh' : ∀ r ∈ rest, ownedBy parts (update owner p n) r.2 = [] →
        version ≤ (t.reassign version p n).node.val r.2 := by
      intro r hr hnil
      have hrn : r.2 ≠ n := by
        intro he
        have harrive := ownedBy_arrive hnd hp fun ho : owner p = n => hdead (ho ▸ hn)
        rw [he] at hnil
        exact not_mem_nil (hnil ▸ harrive.mem_iff.mpr mem_cons_self)
      have hlive := (hrs r (mem_cons_of_mem _ hr)).2.2
      rw [ownedBy_other hrn fun ho : owner p = r.2 => hdead (ho ▸ hlive)] at hnil
      have hle := hfresh r (mem_cons_of_mem _ hr) hnil
      rw [hnode]
      split
      · rwa [update_of_ne hrn]
      · exact hle
    have hrest := ih hrs' hone hfresh' hstep
    rw [hnode] at hrest
    simp only [foldl_cons, strays]
    split_ifs at hrest ⊢ <;> exact hrest

end Turns

/-! ## A list of turns -/

theorem foldl_update (g : Int → Int) (ps : List Int) (f : Int → Int) (q : Int) :
    (ps.foldl (fun f p => update f p (g p)) f) q = if q ∈ ps then g q else f q := by
  induction ps generalizing f with
  | nil => rfl
  | cons p ps ih =>
    rw [foldl_cons, ih]
    by_cases hq : q ∈ ps
    · rw [if_pos hq, if_pos (mem_cons_of_mem _ hq)]
    · rw [if_neg hq]
      by_cases hqp : q = p
      · subst hqp
        rw [update_self, if_pos mem_cons_self]
      · rw [update_of_ne hqp, if_neg (by rw [mem_cons, not_or]; exact ⟨hqp, hq⟩)]

namespace NodeVersions

variable {t : NodeVersions} {version : Int}

theorem foldl_reassign_part (rs : List (Int × Int)) (t : NodeVersions) (version : Int) :
    (rs.foldl (fun t r => t.reassign version r.1 r.2) t).part.val =
      (rs.map Prod.fst).foldl (fun f p => update f p version) t.part.val := by
  induction rs generalizing t with
  | nil => rfl
  | cons r rest ih =>
    rw [foldl_cons, ih, reassign_part]
    rfl

theorem foldl_reassign_keys (version : Int) {nodes : List Int} (rs : List (Int × Int))
    (hparts : ∀ r ∈ rs, r.1 ∈ t.part.keys) (hnodes : ∀ r ∈ rs, r.2 ∈ nodes)
    (ht : t.node.keys = nodes) :
    (rs.foldl (fun t r => t.reassign version r.1 r.2) t).part.keys = t.part.keys ∧
      (rs.foldl (fun t r => t.reassign version r.1 r.2) t).node.keys = nodes := by
  induction rs generalizing t with
  | nil => exact ⟨rfl, ht⟩
  | cons r rest ih =>
    have hkeys : (t.reassign version r.1 r.2).part.keys = t.part.keys :=
      reassign_partKeys (hparts r mem_cons_self)
    have hn : (t.reassign version r.1 r.2).node.keys = nodes := by
      rcases Int.lt_trichotomy version (t.node.val r.2) with h | h | h
      · rw [(reassign_below h).2, Table.keys_set_of_mem _ _ (ht ▸ hnodes r mem_cons_self), ht]
      · rw [(reassign_at h).2, ht]
      · rw [(reassign_above h).2, ht]
    rw [foldl_cons, ← hkeys]
    apply ih
    · intro r' hr'
      rw [hkeys]
      exact hparts r' (mem_cons_of_mem _ hr')
    · exact fun r' hr' => hnodes r' (mem_cons_of_mem _ hr')
    · exact hn

/-- A node that is behind the plan stays where it is. -/
theorem foldl_reassign_node {n : Int} (h : t.node.val n < version) (rs : List (Int × Int)) :
    (rs.foldl (fun t r => t.reassign version r.1 r.2) t).node.val n = t.node.val n := by
  induction rs generalizing t with
  | nil => rfl
  | cons r rest ih =>
    have hnode : (t.reassign version r.1 r.2).node.val n = t.node.val n := by
      rw [reassign_node]
      split
      · next hlt =>
        have hne : n ≠ r.2 := by
          rintro rfl
          omega
        rw [update_of_ne hne]
      · rfl
    rw [foldl_cons, ih (by rw [hnode]; exact h), hnode]

end NodeVersions

/-! ## The reassignment -/

section Reassignment

variable {cached new live nodes : List Int} {t : NodeVersions} {version : Int}

theorem partsOf_congr (h : cached.length = new.length) : partsOf cached = partsOf new := by
  unfold partsOf
  rw [h]

/-- Partitions of dead nodes go to live nodes. -/
structure Reassigns (live cached new : List Int) : Prop where
  length : cached.length = new.length
  stays : ∀ p ∈ partsOf new, nodeOf cached p ∈ live → nodeOf new p = nodeOf cached p
  live : ∀ n ∈ new, n ∈ live

open Scheduler (reassignments)

theorem mem_reassignments {r : Int × Int} : r ∈ reassignments cached new ↔
    r.1 ∈ partsOf new ∧ nodeOf new r.1 ≠ nodeOf cached r.1 ∧ r.2 = nodeOf new r.1 := by
  unfold reassignments
  rw [mem_map]
  constructor
  · rintro ⟨p, hp, rfl⟩
    obtain ⟨hp, hne⟩ := mem_filter.mp hp
    exact ⟨hp, of_decide_eq_true hne, rfl⟩
  · rintro ⟨hp, hne, heq⟩
    exact ⟨r.1, mem_filter.mpr ⟨hp, decide_eq_true hne⟩, Prod.ext rfl heq.symm⟩

theorem reassignments_fst : (reassignments cached new).map Prod.fst =
    (partsOf new).filter fun p => nodeOf new p ≠ nodeOf cached p := by
  unfold reassignments
  rw [map_map]
  exact map_id _

/-- Every partition that moved is at the version of the plan, the others are where they were. -/
theorem reassigned_part (p : Int) :
    ((reassignments cached new).foldl (fun t r => t.reassign version r.1 r.2) t).part.val p =
      if p ∈ partsOf new ∧ nodeOf new p ≠ nodeOf cached p then version else t.part.val p := by
  rw [foldl_reassign_part, reassignments_fst, foldl_update fun _ => version]
  simp only [mem_filter, decide_eq_true_eq]

theorem reassigned_owner {p : Int} (hp : p ∈ partsOf new) :
    ((reassignments cached new).foldl (fun o r => update o r.1 r.2) (nodeOf cached)) p =
      nodeOf new p := by
  unfold reassignments
  rw [foldl_map, foldl_update]
  split
  · rfl
  · next h =>
    by_contra hne
    exact h (mem_filter.mpr ⟨hp, decide_eq_true fun he => hne he.symm⟩)

/-- No partition goes to a node that owns nothing and is behind the plan, and what is counted at
the wrong place cancels at every live node. -/
structure Countable (live cached new : List Int) (version : Int) (t : NodeVersions) : Prop where
  fresh : ∀ r ∈ reassignments cached new, owned cached r.2 = [] → version ≤ t.node.val r.2
  strays : ∀ n ∈ live, strays version t.node.val (reassignments cached new) (fun _ => 0) n = 0

theorem Reassigns.books (h : Reassigns live cached new)
    (hinv : t.InvOn (· ∈ live) nodes cached)
    (hfresh : ∀ r ∈ reassignments cached new, owned cached r.2 = [] → version ≤ t.node.val r.2) :
    Books live (partsOf new) (nodeOf new)
      ((reassignments cached new).foldl (fun t r => t.reassign version r.1 r.2) t)
      (strays version t.node.val (reassignments cached new) fun _ => 0) := by
  have hparts := partsOf_congr h.length
  have hown : ∀ n, ownedBy (partsOf new) (nodeOf cached) n = owned cached n := by
    intro n
    rw [owned_eq_ownedBy, hparts]
  have h0 : Books live (partsOf new) (nodeOf cached) t fun _ => 0 := by
    refine ⟨fun n hn ho => ?_, fun n hn ho => ?_⟩
    · rw [hinv.none n hn (hown n ▸ ho)]
      rfl
    · rw [hown n, Int.sub_zero]
      exact hinv.some n hn (hown n ▸ ho)
  have hbooks := h0.foldl_reassign version (reassignments cached new) (partsOf_nodup new) (fun r hr => ?_) ?_ (fun r hr ho => hfresh r hr (hown r.2 ▸ ho))
  · have howner : ∀ p ∈ partsOf new, (reassignments cached new).foldl
        (fun o r => update o r.1 r.2) (nodeOf cached) p = nodeOf new p :=
      fun p hp => reassigned_owner hp
    have hcongr := ownedBy_congr howner
    exact ⟨fun n hn ho => hbooks.none n hn (hcongr n ▸ ho),
      fun n hn ho => hcongr n ▸ hbooks.some n hn (hcongr n ▸ ho)⟩
  · obtain ⟨hp, hne, heq⟩ := mem_reassignments.mp hr
    exact ⟨hp, fun hl => hne (h.stays _ hp hl), heq ▸ h.live _ (nodeOf_mem hp)⟩
  · rw [reassignments_fst]
    exact (partsOf_nodup new).filter _

/-- A partition that goes to a node that owns nothing and is behind leaves it untracked. -/
theorem Reassigns.fresh (h : Reassigns live cached new)
    (hinv : ((reassignments cached new).foldl (fun t r => t.reassign version r.1 r.2) t).InvOn
      (· ∈ live) nodes new) :
    ∀ r ∈ reassignments cached new, owned cached r.2 = [] → version ≤ t.node.val r.2 := by
  intro r hr ho
  obtain ⟨hp, -, heq⟩ := mem_reassignments.mp hr
  by_contra hlt
  have hmem : r.1 ∈ owned new r.2 := heq ▸ mem_owned_nodeOf hp
  obtain ⟨q, hq, hval⟩ := (hinv.some r.2 (heq ▸ h.live _ (nodeOf_mem hp))
    (ne_nil_of_mem hmem)).exists_eq
  obtain ⟨hqp, hqn⟩ := mem_owned.mp hq
  -- all partitions of the node have just come
  have hmoved : nodeOf new q ≠ nodeOf cached q := by
    intro he
    rw [← partsOf_congr h.length] at hqp
    exact not_mem_nil (ho ▸ mem_owned.mpr ⟨hqp, he.symm.trans hqn⟩)
  rw [reassigned_part, if_pos ⟨hqp, hmoved⟩, foldl_reassign_node (by omega)] at hval
  omega

/-- **The tables after the reassignment.** -/
theorem Reassigns.invOn_iff (version : Int) (h : Reassigns live cached new) (hlive : ∀ n ∈ live, n ∈ nodes)
    (hinv : t.InvOn (· ∈ live) nodes cached) :
    ((reassignments cached new).foldl (fun t r => t.reassign version r.1 r.2) t).InvOn
      (· ∈ live) nodes new ↔ Countable live cached new version t := by
  have hkeys := foldl_reassign_keys (t := t) version (reassignments cached new)
    (fun r hr => by
      rw [hinv.partKeys, partsOf_congr h.length]
      exact (mem_reassignments.mp hr).1)
    (fun r hr => by
      obtain ⟨hp, -, heq⟩ := mem_reassignments.mp hr
      exact hlive _ (heq ▸ h.live _ (nodeOf_mem hp)))
    hinv.nodeKeys
  constructor
  · intro hinv'
    have hfresh := h.fresh hinv'
    have hbooks := h.books hinv hfresh
    refine ⟨hfresh, fun n hn => ?_⟩
    by_cases ho : owned new n = []
    · have h₁ := hinv'.none n hn ho
      have h₂ := hbooks.none n hn ho
      omega
    · have h₁ := (hinv'.some n hn ho).count
      have h₂ := (hbooks.some n hn ho).count
      rw [← owned_eq_ownedBy] at h₂
      omega
  · intro hc
    have hbooks := h.books hinv hc.fresh
    refine ⟨hkeys.1.trans (hinv.partKeys.trans (partsOf_congr h.length)), hkeys.2,
      fun n hn ho => ?_, fun n hn ho => ?_⟩
    · have := hbooks.none n hn ho
      rwa [hc.strays n hn, Int.sub_zero] at this
    · have := hbooks.some n hn ho
      rwa [hc.strays n hn, Int.sub_zero] at this

end Reassignment

/-! ## Reports after the reassignment -/

namespace ControlManager

/-- Reports in order: each partition of the list reports its next version. -/
def orderlyMaps (plan : Plan) (s : ControlManager) (ps : List Int) : Except ControlCheck ControlManager :=
  ps.foldlM (fun s p => handleUpdateMapVersion plan s p (s.map.part.val p + 1)) s

theorem orderlyMaps_ok {plan : Plan} {P : Int → Prop} {nodes ps : List Int} {s : ControlManager}
    (h : s.map.InvOn P nodes plan.mapPartToNode) (hnodes : ∀ n ∈ plan.mapPartToNode, n ∈ nodes)
    (hP : ∀ n ∈ plan.mapPartToNode, P n) (hps : ∀ p ∈ ps, p ∈ partsOf plan.mapPartToNode) :
    ∃ s', orderlyMaps plan s ps = .ok s' := by
  induction ps generalizing s with
  | nil => exact ⟨s, rfl⟩
  | cons p ps ih =>
    have hp := hps p mem_cons_self
    obtain ⟨rolled, t, hadv, hinv, -⟩ := h.advance .kMap hnodes hp (hP _ (nodeOf_mem hp))
    have hone : handleUpdateMapVersion plan s p (s.map.part.val p + 1) = .ok { s with map := t } := by
      unfold handleUpdateMapVersion
      rw [hadv]
      rfl
    unfold orderlyMaps at ih ⊢
    rw [foldlM_cons, hone]
    exact ih hinv fun q hq => hps q (mem_cons_of_mem _ hq)

end ControlManager

namespace Scheduler

variable {δ : Type} {s : Scheduler δ} {id : Int} {live nodes : List Int} {spec : MapJoinSpec String}

/-- What a reassignment is for: the tables are right for the new map, the partitions that moved
start from the version of the plan, and no report of a version that is due fails a check. -/
structure MapKept (live nodes : List Int) (id : Int) (spec : MapJoinSpec String)
    (s s' : Scheduler δ) : Prop where
  tables : (s'.control id).map.InvOn (· ∈ live) nodes (s'.partToNode spec.mapCollectionId)
  moved : ∀ p ∈ partsOf (s'.partToNode spec.mapCollectionId),
    nodeOf (s'.partToNode spec.mapCollectionId) p ≠
      nodeOf (s.cachedPartToNode id spec.mapCollectionId) p →
    (s'.control id).map.part.val p = (s'.control id).versions
  cached : s'.cachedPartToNode id spec.mapCollectionId = s'.partToNode spec.mapCollectionId
  reports : ∀ ps, (∀ p ∈ ps, p ∈ partsOf (s'.partToNode spec.mapCollectionId)) →
    ∃ c, ControlManager.orderlyMaps (s'.plan id spec) (s'.control id) ps = .ok c

theorem reassignMap_ok (hspec : (s.controlSpecs id).bind (·.getMapJoinSpec?) = some spec)
    (hlen : (s.cachedPartToNode id spec.mapCollectionId).length =
      (s.partToNode spec.mapCollectionId).length) :
    ∃ s', s.reassignMap id spec.mapCollectionId = .ok s' ∧
      s'.control id = { s.control id with
        map := (reassignments (s.cachedPartToNode id spec.mapCollectionId)
          (s.partToNode spec.mapCollectionId)).foldl
            (fun t r => t.reassign (s.control id).versions r.1 r.2) (s.control id).map } ∧
      s'.cachedPartToNode id spec.mapCollectionId = s.partToNode spec.mapCollectionId ∧
      s'.partToNode = s.partToNode := by
  unfold reassignMap
  rw [hspec]
  simp only
  rw [check_pos trivial, check_pos hlen]
  refine ⟨_, rfl, update_self _ _ _, ?_, rfl⟩
  show update s.cachedPartToNode id _ id _ = _
  rw [update_self, update_self]

/-- **A reassignment keeps the books, except where it counts at the wrong place.** -/
theorem reassignMap_kept_iff
    (hspec : (s.controlSpecs id).bind (·.getMapJoinSpec?) = some spec)
    (hlive : ∀ n ∈ live, n ∈ nodes)
    (hinv : (s.control id).map.InvOn (· ∈ live) nodes (s.cachedPartToNode id spec.mapCollectionId))
    (hre : Reassigns live (s.cachedPartToNode id spec.mapCollectionId)
      (s.partToNode spec.mapCollectionId)) :
    ∃ s', s.reassignMap id spec.mapCollectionId = .ok s' ∧
      (MapKept live nodes id spec s s' ↔
        Countable live (s.cachedPartToNode id spec.mapCollectionId)
          (s.partToNode spec.mapCollectionId) (s.control id).versions (s.control id).map) := by
  obtain ⟨s', hs', hcontrol, hcached, hmap⟩ := reassignMap_ok hspec hre.length
  have hiff := hre.invOn_iff (s.control id).versions hlive hinv
  refine ⟨s', hs', fun hk => ?_, fun hc => ?_⟩
  · have htables := hk.tables
    rw [hcontrol, hmap] at htables
    exact hiff.mp htables
  · have htables := hiff.mpr hc
    refine ⟨?_, fun p hp hne => ?_, ?_, fun ps hps => ?_⟩
    · rw [hcontrol, hmap]
      exact htables
    · rw [hmap] at hp hne
      rw [hcontrol]
      exact (reassigned_part p).trans (if_pos ⟨hp, hne⟩)
    · rw [hcached, hmap]
    · have hplan : (s'.plan id spec).mapPartToNode = s.partToNode spec.mapCollectionId :=
        congrFun hmap _
      have htables' : (s'.control id).map.InvOn (· ∈ live) nodes (s'.plan id spec).mapPartToNode := by
        rw [hcontrol, hplan]
        exact htables
      rw [hmap] at hps
      apply ControlManager.orderlyMaps_ok htables'
      · rw [hplan]
        exact fun n hn => hlive n (hre.live n hn)
      · rw [hplan]
        exact hre.live
      · rw [hplan]
        exact hps

/-! ## Two takeovers -/

/-- Plan 0 maps collection 1, which was on the nodes `cached` at its start and is on `new` after
the failure of node 6; `map` are its tables. -/
def takeover (cached new : List Int) (map : NodeVersions) : Scheduler Unit where
  specs := []
  runner := .ofDag (.ofProgram [])
  status := .empty
  controlSpecs _ := some ⟨.kMapJoin, 0, "", .mapJoin ⟨1, 2, 0, 3, 1, 0, "", ""⟩⟩
  control _ := { ControlManager.runPlan with map := map }
  expectedVersions _ := 3
  callbacks _ := .finishPlan 0
  cachedPartToNode _ _ := cached
  recover := {
    nodes := OrdSet.empty.insert 5
    collectionMap := fun _ => some new
    loader := ⟨fun _ => 0, fun _ => 0, fun _ => none⟩
    manager := ⟨fun _ => .empty, fun _ => none⟩
    started := false
    callback := false
    recovering := .empty
    updating := .empty
    invoked := 0
    commands := [] }
  onRecovered := .finishRecovery
  mailbox := []
  launches := []

/-- Node 5 is a version ahead when it gets the second partition. -/
def ahead : NodeVersions :=
  ⟨(Table.ofKeys [0, 1] 0).set 0 1, (Table.ofKeys [5, 6] 0).set 5 1, .ofKeys [5, 6] 1⟩

theorem ahead_invOn : ahead.InvOn (· ∈ [5]) [5, 6] [5, 6] where
  partKeys := rfl
  nodeKeys := rfl
  none n hn ho := by
    rw [mem_singleton.mp hn] at ho
    exact absurd ho (by decide)
  some n hn _ := by
    rw [mem_singleton.mp hn]
    exact ⟨by decide, by decide, by decide⟩

theorem reassignMap_kept_iff_ahead : ∃ s', (takeover [5, 6] [5, 5] ahead).reassignMap 0 1 = .ok s' ∧
    MapKept [5] [5, 6] 0 ⟨1, 2, 0, 3, 1, 0, "", ""⟩ (takeover [5, 6] [5, 5] ahead) s' := by
  obtain ⟨s', hs, hiff⟩ := @reassignMap_kept_iff Unit (takeover [5, 6] [5, 5] ahead) 0 [5] [5, 6] _
    rfl (by decide) ahead_invOn ⟨rfl, by decide, by decide⟩
  exact ⟨s', hs, hiff.mpr ⟨by decide, by decide⟩⟩

/-- Node 5 owned nothing, and gets the one partition at the version of the plan: it is counted for
node 0, and the first report of the partition stops the manager. -/
theorem reassignMap_spare_stops :
    (NodeVersions.init [5, 6] [6]).InvOn (· ∈ [5]) [5, 6] [6] ∧ Reassigns [5] [6] [5] ∧
      ∃ s', (takeover [6] [5] (.init [5, 6] [6])).reassignMap 0 1 = .ok s' ∧
        ControlManager.orderlyMaps (s'.plan 0 ⟨1, 2, 0, 3, 1, 0, "", ""⟩) (s'.control 0) [0] =
          .error (.nodeCount .kMap) ∧
        ¬ MapKept [5] [5, 6] 0 ⟨1, 2, 0, 3, 1, 0, "", ""⟩
          (takeover [6] [5] (.init [5, 6] [6])) s' := by
  have hinv := inv_init [5, 6] [6]
  refine ⟨⟨rfl, rfl, fun n _ => hinv.none n, fun n _ => hinv.some n⟩, ⟨rfl, by decide, by decide⟩,
    _, rfl, rfl, ?_⟩
  intro hk
  obtain ⟨c, hc⟩ := hk.reports [0] (by decide)
  cases hc

end Scheduler

end Tangram
