import Tangram.Scheduler.Moves

/-!
# Migration of partitions

`ControlManager::BatchMigrate`: a list of moves of update partitions, which see each
other's effects.  After every move both tables are right if and only if each move
fits the tables as they are before it (`ControlManager.moves_balanced_iff`); and then
no report in order takes the version of the plan past an update partition
(`ControlManager.orderlyJoins_le`).
-/

namespace Tangram

open StepRun List Function NodeVersions

/-! ## The batch -/

inductive MigrateFlag
  | kStartMigrate | kFlushAll | kDest | kStartMigrateMapOnly | kReceiveMapOnly
deriving DecidableEq, Repr

structure MigrateMeta where
  flag : MigrateFlag
  planId : Int
  collectionId : Int
  partitionId : Int
  fromId : Int
  toId : Int
  numNodes : Int
deriving DecidableEq, Repr

/-- One turn of `BatchMigrate`; `same` says whether the map collection is the update collection.
A negative partition is above every size, being compared as a `size_t`. -/
def ControlManager.migrate (same : Bool) (x : List Int × ControlManager) (m : Migration) :
    Except MigrateCheck (List Int × ControlManager) := do
  let (partToNode, s) := x
  check .partId (0 ≤ m.partId ∧ m.partId < partToNode.length)
  check .fromId (nodeOf partToNode m.partId = m.fromId)
  let partToNode := m.apply partToNode
  check .minVersion (s.update.part.val m.partId = s.versions)
  check .nodeVersion (s.update.part.val m.partId = s.update.node.val m.fromId)
  let update ← s.update.giveUpdate partToNode m.fromId
  let map := if same then s.map.giveMap partToNode m.fromId m.partId else s.map
  let update := update.takeUpdate m.toId m.partId
  let map := if same then map.takeMap m.toId m.partId else map
  return (partToNode, { s with update := update, map := map })

/-- The messages that go to all controllers, each with the view it carries. -/
abbrev Sent : Type := List (MigrateMeta × List Int)

/-- A turn with its message. -/
def migrateSend (same : Bool) (info : Migration → MigrateMeta)
    (x : (List Int × ControlManager) × Sent) (m : Migration) :
    Except MigrateCheck ((List Int × ControlManager) × Sent) := do
  let y ← ControlManager.migrate same x.1 m
  return (y, x.2 ++ [(info m, y.1)])

namespace Scheduler

variable {δ : Type}

/-- `ControlManager::BatchMigrate`. -/
def batchMigrate (s : Scheduler δ) (planId : Int) (moves : List Migration) :
    Except MigrateCheck (Scheduler δ × Sent) :=
  match (s.controlSpecs planId).bind (·.getMapJoinSpec?) with
  | none => .error .noSpec
  | some spec =>
    match s.recover.collectionMap spec.updateCollectionId with
    | none => .error .collectionMap
    | some partToNode => do
      let info := fun m : Migration => ⟨.kStartMigrate, planId, spec.updateCollectionId, m.partId,
        m.fromId, m.toId, s.nodes.elems.length⟩
      let x ← moves.foldlM (migrateSend (spec.mapCollectionId = spec.updateCollectionId) info)
        ((partToNode, s.control planId), [])
      return ({ s with
        control := Function.update s.control planId x.1.2
        recover := { s.recover with
          collectionMap := Function.update s.recover.collectionMap spec.updateCollectionId
            (some x.1.1) } }, x.2)

end Scheduler

/-! ## A list of moves -/

namespace ControlManager

variable {same : Bool} {mapPartToNode : List Int} {x x' : List Int × ControlManager}
  {m : Migration} {moves : List Migration}

/-- Both tables are right, and the version of the plan is that of the last update partition.
`mapPartToNode` is the map of the map collection, if it is another one. -/
structure Balanced (same : Bool) (mapPartToNode : List Int) (x : List Int × ControlManager) :
    Prop where
  map : x.2.map.Tracks (if same then x.1 else mapPartToNode)
  update : x.2.update.Tracks x.1
  least : IsLeast {v | ∃ p ∈ partsOf x.1, x.2.update.part.val p = v} x.2.versions

/-- Neither table goes wrong over the move. -/
def MoveFits (same : Bool) (x : List Int × ControlManager) (m : Migration) : Prop :=
  x.2.update.UpdateFits x.1 m ∧ (same = true → x.2.map.MapFits x.1 m)

/-- Every move fits the tables as they are before it. -/
def MovesFit (same : Bool) : List Int × ControlManager → List Migration → Prop
  | _, [] => True
  | x, m :: moves => MoveFits same x m ∧ ∀ x', migrate same x m = .ok x' → MovesFit same x' moves

theorem migrate_cases (h : migrate same x m = .ok x') :
    m.partId ∈ partsOf x.1 ∧ nodeOf x.1 m.partId = m.fromId ∧
      x.2.update.node.val m.fromId = x.2.update.part.val m.partId ∧
      x' = (m.apply x.1, { x.2 with
        update := (x.2.update.give (m.apply x.1) m.fromId).takeUpdate m.toId m.partId
        map := if same then (x.2.map.giveMap (m.apply x.1) m.fromId m.partId).takeMap m.toId m.partId
          else x.2.map }) := by
  obtain ⟨partToNode, s⟩ := x
  unfold migrate at h
  obtain ⟨_, hp, h⟩ := bind_eq_ok.mp h
  obtain ⟨_, hfrom, h⟩ := bind_eq_ok.mp h
  obtain ⟨_, -, h⟩ := bind_eq_ok.mp h
  obtain ⟨_, hv, h⟩ := bind_eq_ok.mp h
  obtain ⟨t, ht, h⟩ := bind_eq_ok.mp h
  obtain ⟨_, -, ht⟩ := bind_eq_ok.mp ht
  cases ht
  cases h
  refine ⟨mem_partsOf.mpr (check_eq_ok.mp hp), check_eq_ok.mp hfrom, (check_eq_ok.mp hv).symm, ?_⟩
  cases same <;> rfl

/-- **One move.** -/
theorem migrate_balanced_iff (h : Balanced same mapPartToNode x) (hx : migrate same x m = .ok x') :
    Balanced same mapPartToNode x' ↔ MoveFits same x m := by
  obtain ⟨hp, hfrom, hv, rfl⟩ := migrate_cases hx
  have hupdate := tracks_apply_iff (m := m)
    (r := (x.2.update.give (m.apply x.1) m.fromId).takeUpdate m.toId m.partId)
    (by rw [takeUpdate_part, give_part])
    (fun n hn => takeUpdate_keys (hn.imp_right give_keys)) h.update
  rw [update_move_iff hp hfrom h.update.tracked hv] at hupdate
  have hleast : IsLeast {v | ∃ p ∈ partsOf (m.apply x.1),
      ((x.2.update.give (m.apply x.1) m.fromId).takeUpdate m.toId m.partId).part.val p = v}
      x.2.versions := by
    rw [Migration.partsOf_apply, takeUpdate_part, give_part]
    exact h.least
  unfold MoveFits
  cases same with
  | false =>
    refine ⟨fun hb => ⟨hupdate.mp hb.update, fun hf => absurd hf Bool.false_ne_true⟩, fun hf => ?_⟩
    exact ⟨h.map, hupdate.mpr hf.1, hleast⟩
  | true =>
    have hmap := tracks_apply_iff (m := m)
      (r := (x.2.map.giveMap (m.apply x.1) m.fromId m.partId).takeMap m.toId m.partId)
      (by rw [takeMap_part, giveMap_part])
      (fun n hn => takeMap_keys (hn.imp_right giveMap_keys)) h.map
    rw [if_pos rfl, map_move_iff hp hfrom h.map.tracked] at hmap
    refine ⟨fun hb => ⟨hupdate.mp hb.update, fun _ => hmap.mp hb.map⟩, fun hf => ?_⟩
    exact ⟨hmap.mpr (hf.2 rfl), hupdate.mpr hf.1, hleast⟩

/-- **Every list of moves.** -/
theorem moves_balanced_iff (h : Balanced same mapPartToNode x)
    (hx : moves.foldlM (migrate same) x = .ok x') :
    (∀ pre, pre <+: moves → ∀ y, pre.foldlM (migrate same) x = .ok y →
      Balanced same mapPartToNode y) ↔ MovesFit same x moves := by
  induction moves generalizing x with
  | nil =>
    refine ⟨fun _ => trivial, fun _ pre hpre y hy => ?_⟩
    rw [prefix_nil.mp hpre] at hy
    cases hy
    exact h
  | cons m moves ih =>
    rw [foldlM_cons] at hx
    obtain ⟨x₁, hm, hx₁⟩ := bind_eq_ok.mp hx
    have hone := migrate_balanced_iff h hm
    have hcons : ∀ pre : List Migration, (m :: pre).foldlM (migrate same) x =
        pre.foldlM (migrate same) x₁ := by
      intro pre
      rw [foldlM_cons, hm]
      rfl
    constructor
    · intro hall
      have h₁ : Balanced same mapPartToNode x₁ :=
        hall [m] ⟨moves, rfl⟩ x₁ (hcons [])
      refine ⟨hone.mp h₁, fun y hy => ?_⟩
      cases Except.ok.inj (hm.symm.trans hy)
      refine (ih h₁ hx₁).mp fun pre hpre y hy => ?_
      exact hall (m :: pre) (cons_prefix_cons.mpr ⟨rfl, hpre⟩) y ((hcons pre).trans hy)
    · rintro ⟨hfit, hrest⟩ pre hpre y hy
      have h₁ := hone.mpr hfit
      cases pre with
      | nil =>
        cases hy
        exact h
      | cons m' pre =>
        obtain ⟨heq, hpre'⟩ := cons_prefix_cons.mp hpre
        rw [heq, hcons] at hy
        exact (ih h₁ hx₁).mpr (hrest x₁ hm) pre hpre' y hy

/-! ## Reports after the moves -/

/-- Reports in order: each partition of the list reports its next version. -/
def orderlyJoins (plan : Plan) (s : ControlManager) (ps : List Int) :
    Except ControlCheck ControlManager :=
  ps.foldlM (fun s p => handleUpdateJoinVersion plan s p (s.update.part.val p + 1)) s

variable {plan : Plan} {s s' : ControlManager}

theorem updateVersion_update (h : updateVersion plan s = .ok s') :
    s'.update = s.update ∧ s'.versions = s.versions + 1 := by
  have hann : ∀ t : ControlManager, (announce plan t).update = t.update ∧
      (announce plan t).versions = t.versions := by
    intro t
    unfold announce
    split <;> exact ⟨rfl, rfl⟩
  unfold updateVersion at h
  dsimp only at h
  split at h
  · obtain ⟨t, ht, h⟩ := bind_eq_ok.mp h
    obtain ⟨_, -, ht⟩ := bind_eq_ok.mp ht
    cases ht
    cases h
    exact hann _
  · cases h
    exact hann _

/-- A node that owns partitions is in the table, so no version passes it by. -/
theorem allPassed_lt (h : s.update.Tracks plan.updatePartToNode)
    (hle : ∀ p ∈ partsOf plan.updatePartToNode, s.versions ≤ s.update.part.val p)
    (hall : s.allPassed = true) :
    ∀ p ∈ partsOf plan.updatePartToNode, s.versions < s.update.part.val p := by
  intro p hp
  have hown := mem_owned_nodeOf hp
  have hmin := h.tracked _ (ne_nil_of_mem hown)
  obtain ⟨q, hq, hval⟩ := hmin.exists_eq
  have hpassed := all_eq_true.mp hall _ (h.owners _ (nodeOf_mem hp))
  have hpos := hmin.pos
  have h₁ := hle q (mem_owned.mp hq).1
  have h₂ := hmin.le p hown
  simp only [Bool.or_eq_true, decide_eq_true_eq] at hpassed
  omega

/-- One report: the version of the plan stays below those of the partitions. -/
theorem join_tracks (h : s.update.Tracks plan.updatePartToNode)
    (hle : ∀ p ∈ partsOf plan.updatePartToNode, s.versions ≤ s.update.part.val p) {p : Int}
    (hp : p ∈ partsOf plan.updatePartToNode)
    (hs : handleUpdateJoinVersion plan s p (s.update.part.val p + 1) = .ok s') :
    s'.update.Tracks plan.updatePartToNode ∧
      ∀ p ∈ partsOf plan.updatePartToNode, s'.versions ≤ s'.update.part.val p := by
  have hinv : s.update.InvOn (fun n => owned plan.updatePartToNode n ≠ []) s.update.node.keys
      plan.updatePartToNode :=
    ⟨h.partKeys, rfl, fun n hne hnil => absurd hnil hne, fun n _ => h.tracked n⟩
  obtain ⟨rolled, t, hadv, hinv', hpart, -, -⟩ := hinv.advance .kJoin h.owners hp
    (ne_nil_of_mem (mem_owned_nodeOf hp))
  have ht : t.Tracks plan.updatePartToNode :=
    ⟨hinv'.partKeys, fun n hn => hinv'.nodeKeys ▸ h.owners n hn, fun n hne => hinv'.some n hne hne⟩
  have hle' : ∀ q ∈ partsOf plan.updatePartToNode, s.versions ≤ t.part.val q := by
    intro q hq
    have := hle q hq
    rw [hpart]
    by_cases hqp : q = p
    · subst hqp
      rw [update_self]
      omega
    · rwa [update_of_ne hqp]
  unfold handleUpdateJoinVersion at hs
  rw [hadv] at hs
  change (if rolled = true then _ else _) = _ at hs
  split at hs
  · split at hs
    · next hall =>
      obtain ⟨hup, hver⟩ := updateVersion_update hs
      have hlt := allPassed_lt (s := { s with update := t }) ht hle' hall
      rw [hup, hver]
      exact ⟨ht, fun q hq => hlt q hq⟩
    · cases hs
      exact ⟨ht, hle'⟩
  · cases hs
    exact ⟨ht, hle'⟩

/-- All reports. -/
theorem orderlyJoins_le (h : s.update.Tracks plan.updatePartToNode)
    (hle : ∀ p ∈ partsOf plan.updatePartToNode, s.versions ≤ s.update.part.val p) {ps : List Int}
    (hps : ∀ p ∈ ps, p ∈ partsOf plan.updatePartToNode) (hs : orderlyJoins plan s ps = .ok s') :
    ∀ p ∈ partsOf plan.updatePartToNode, s'.versions ≤ s'.update.part.val p := by
  have := foldlM_induct (P := fun s => s.update.Tracks plan.updatePartToNode ∧
    ∀ p ∈ partsOf plan.updatePartToNode, s.versions ≤ s.update.part.val p) ps ⟨h, hle⟩
    (fun s p s' hp hs hstep => join_tracks hs.1 hs.2 (hps p hp) hstep) hs
  exact this.2

end ControlManager

namespace Scheduler

open ControlManager (Balanced MovesFit orderlyJoins)

variable {δ : Type} {s s' : Scheduler δ} {id : Int} {spec : MapJoinSpec String}
  {moves : List Migration}

theorem foldlM_migrateSend {same : Bool} {info : Migration → MigrateMeta}
    {x y : List Int × ControlManager} (sent : Sent) :
    (∃ sent', moves.foldlM (migrateSend same info) (x, sent) = .ok (y, sent')) ↔
      moves.foldlM (ControlManager.migrate same) x = .ok y := by
  induction moves generalizing x sent with
  | nil =>
    constructor
    · rintro ⟨sent', h⟩
      cases h
      rfl
    · intro h
      cases h
      exact ⟨sent, rfl⟩
  | cons m moves ih =>
    rw [foldlM_cons, foldlM_cons]
    cases hm : ControlManager.migrate same x m with
    | error e =>
      have hsend : migrateSend same info (x, sent) m = .error e := by
        unfold migrateSend
        rw [hm]
        rfl
      rw [hsend]
      exact ⟨fun ⟨_, h⟩ => (nomatch h), fun h => (nomatch h)⟩
    | ok x₁ =>
      have hsend : migrateSend same info (x, sent) m = .ok (x₁, sent ++ [(info m, x₁.1)]) := by
        unfold migrateSend
        rw [hm]
        rfl
      rw [hsend]
      exact ih _

/-- The batch is the list of moves on the map and the tables of the plan. -/
theorem batchMigrate_iff (hspec : (s.controlSpecs id).bind (·.getMapJoinSpec?) = some spec)
    {partToNode : List Int} (hmap : s.recover.collectionMap spec.updateCollectionId = some partToNode) :
    (∃ sent, s.batchMigrate id moves = .ok (s', sent)) ↔
      ∃ y, moves.foldlM (ControlManager.migrate (spec.mapCollectionId = spec.updateCollectionId))
        (partToNode, s.control id) = .ok y ∧ s' = { s with
          control := update s.control id y.2
          recover := { s.recover with
            collectionMap := update s.recover.collectionMap spec.updateCollectionId
              (some y.1) } } := by
  unfold batchMigrate
  rw [hspec]
  simp only
  rw [hmap]
  simp only
  constructor
  · rintro ⟨sent, h⟩
    obtain ⟨⟨y, sent'⟩, hy, h⟩ := bind_eq_ok.mp h
    cases h
    exact ⟨y, (foldlM_migrateSend _).mp ⟨_, hy⟩, rfl⟩
  · rintro ⟨y, hy, rfl⟩
    obtain ⟨sent, h⟩ := (foldlM_migrateSend _).mpr hy
    exact ⟨sent, by rw [h]; rfl⟩

/-- The books of plan `id`: both tables are right, and its version is that of the last update
partition. -/
structure Tracks (id : Int) (spec : MapJoinSpec String) (s : Scheduler δ) : Prop where
  map : (s.control id).map.Tracks (s.partToNode spec.mapCollectionId)
  update : (s.control id).update.Tracks (s.partToNode spec.updateCollectionId)
  least : IsLeast {v | ∃ p ∈ partsOf (s.partToNode spec.updateCollectionId),
    (s.control id).update.part.val p = v} (s.control id).versions

/-- No reports in order take the version of the plan past an update partition. -/
def JoinsWait (id : Int) (spec : MapJoinSpec String) (s : Scheduler δ) : Prop :=
  ∀ ps c, (∀ p ∈ ps, p ∈ partsOf (s.partToNode spec.updateCollectionId)) →
    orderlyJoins (s.plan id spec) (s.control id) ps = .ok c →
    ∀ p ∈ partsOf (s.partToNode spec.updateCollectionId), c.versions ≤ c.update.part.val p

theorem Tracks.joinsWait (h : Tracks id spec s) : JoinsWait id spec s := by
  intro ps c hps hc
  exact ControlManager.orderlyJoins_le h.update (fun p hp => h.least.2 ⟨p, hp, rfl⟩) hps hc

theorem tracks_iff_balanced (id : Int) {y : List Int × ControlManager}
    (hs : s' = { s with
      control := update s.control id y.2
      recover := { s.recover with
        collectionMap := update s.recover.collectionMap spec.updateCollectionId
          (some y.1) } }) :
    Tracks id spec s' ↔ Balanced (spec.mapCollectionId = spec.updateCollectionId)
      (s.partToNode spec.mapCollectionId) y := by
  have hcontrol : s'.control id = y.2 := by
    rw [hs]
    exact update_self _ _ _
  have hupdate : s'.partToNode spec.updateCollectionId = y.1 := by
    rw [hs]
    show (update s.recover.collectionMap _ _ _).getD [] = _
    rw [update_self]
    rfl
  have hmap : s'.partToNode spec.mapCollectionId =
      if decide (spec.mapCollectionId = spec.updateCollectionId) then y.1
      else s.partToNode spec.mapCollectionId := by
    by_cases hsame : spec.mapCollectionId = spec.updateCollectionId
    · rw [decide_eq_true hsame, if_pos rfl, hsame, hupdate]
    · rw [decide_eq_false hsame, if_neg Bool.false_ne_true, hs]
      show (update s.recover.collectionMap _ _ _).getD [] = _
      rw [update_of_ne hsame]
      rfl
  constructor
  · rintro ⟨h₁, h₂, h₃⟩
    rw [hcontrol] at h₁ h₂ h₃
    rw [hmap] at h₁
    rw [hupdate] at h₂ h₃
    exact ⟨h₁, h₂, h₃⟩
  · rintro ⟨h₁, h₂, h₃⟩
    refine ⟨?_, ?_, ?_⟩
    · rw [hcontrol, hmap]
      exact h₁
    · rw [hcontrol, hupdate]
      exact h₂
    · rw [hcontrol, hupdate]
      exact h₃

/-- **Every batch that passes the checks**: the books are right after each of its moves if and
only if each move fits. -/
theorem batchMigrate_tracks_iff {sent : Sent}
    (hspec : (s.controlSpecs id).bind (·.getMapJoinSpec?) = some spec) (h : Tracks id spec s)
    (hs : s.batchMigrate id moves = .ok (s', sent)) :
    (∀ pre, pre <+: moves → ∃ s₁ sent₁, s.batchMigrate id pre = .ok (s₁, sent₁) ∧
        Tracks id spec s₁ ∧ JoinsWait id spec s₁) ↔
      MovesFit (spec.mapCollectionId = spec.updateCollectionId)
        (s.partToNode spec.updateCollectionId, s.control id) moves := by
  obtain ⟨partToNode, hmap⟩ : ∃ partToNode,
      s.recover.collectionMap spec.updateCollectionId = some partToNode := by
    cases hmap : s.recover.collectionMap spec.updateCollectionId with
    | none =>
      unfold batchMigrate at hs
      rw [hspec] at hs
      simp only at hs
      rw [hmap] at hs
      cases hs
    | some partToNode => exact ⟨partToNode, rfl⟩
  have hpart : s.partToNode spec.updateCollectionId = partToNode := by
    unfold Scheduler.partToNode
    rw [hmap]
    rfl
  obtain ⟨x', hx', -⟩ := (batchMigrate_iff hspec hmap).mp ⟨sent, hs⟩
  have hbal : Balanced (spec.mapCollectionId = spec.updateCollectionId)
      (s.partToNode spec.mapCollectionId) (partToNode, s.control id) := by
    have hself : s = { s with
        control := update s.control id (s.control id)
        recover := { s.recover with
          collectionMap := update s.recover.collectionMap spec.updateCollectionId
            (some partToNode) } } := by
      rw [update_eq_self, ← hmap, update_eq_self]
    exact (tracks_iff_balanced id hself).mp h
  rw [hpart, ← ControlManager.moves_balanced_iff hbal hx']
  constructor
  · intro hall pre hpre y hy
    obtain ⟨s₁, sent₁, hs₁, htracks, -⟩ := hall pre hpre
    obtain ⟨y', hy', hs₁⟩ := (batchMigrate_iff hspec hmap).mp ⟨sent₁, hs₁⟩
    cases Except.ok.inj (hy.symm.trans hy')
    exact (tracks_iff_balanced id hs₁).mp htracks
  · intro hall pre hpre
    obtain ⟨rest, rfl⟩ := hpre
    rw [foldlM_append] at hx'
    obtain ⟨y, hy, -⟩ := bind_eq_ok.mp hx'
    obtain ⟨sent₁, hs₁⟩ := (batchMigrate_iff hspec hmap).mpr ⟨y, hy, rfl⟩
    have htracks := (tracks_iff_balanced id rfl).mpr (hall pre ⟨rest, rfl⟩ y hy)
    exact ⟨_, sent₁, hs₁, htracks, htracks.joinsWait⟩

/-! ## Two batches -/

/-- Plan 0 maps collection 1, on node 5, and updates collection 2, on the nodes `partToNode`; it
is at version 1, as the tables `update` are. -/
def rebalancing (partToNode : List Int) (update : NodeVersions) : Scheduler Unit :=
  { takeover [5] [5] (.init [5, 6] [5]) with
    control := fun _ => { ControlManager.runPlan with
      versions := 1
      map := .init [5, 6] [5]
      update := update }
    recover := { (takeover [5] [5] (.init [5, 6] [5])).recover with
      collectionMap := fun c => some (if c = 1 then [5] else partToNode) } }

theorem rebalancing_tracks {partToNode : List Int} {update : NodeVersions}
    (h : update.Tracks partToNode)
    (hleast : IsLeast {v | ∃ p ∈ partsOf partToNode, update.part.val p = v} 1) :
    Tracks 0 ⟨1, 2, 0, 3, 1, 0, "", ""⟩ (rebalancing partToNode update) where
  map := by
    have hinv := inv_init [5, 6] [5]
    show (init [5, 6] [5]).Tracks [5]
    exact ⟨rfl, by decide, hinv.some⟩
  update := h
  least := hleast

/-- Two partitions on node 5 at version 1, one on node 6 that is ahead. -/
def slowAndFast : NodeVersions :=
  ⟨(Table.ofKeys [0, 1, 2] 1).set 2 2, (Table.ofKeys [5, 6] 1).set 6 2, (Table.ofKeys [5, 6] 1).set 5 2⟩

theorem slowAndFast_tracks : slowAndFast.Tracks [5, 5, 6] where
  partKeys := rfl
  owners := by decide
  tracked n hn := by
    have hcases : n = 5 ∨ n = 6 := by
      obtain ⟨p, hown⟩ := exists_mem_of_ne_nil _ hn
      obtain ⟨hp, rfl⟩ := mem_owned.mp hown
      simpa using nodeOf_mem hp
    rcases hcases with rfl | rfl
    · exact ⟨by decide, by decide, by decide⟩
    · exact ⟨by decide, by decide, by decide⟩

/-- Node 5 gives one of its partitions to node 6. -/
theorem batchMigrate_tracks_iff_slowAndFast :
    ∃ s' sent, (rebalancing [5, 5, 6] slowAndFast).batchMigrate 0 [⟨5, 6, 1⟩] = .ok (s', sent) ∧
      Tracks 0 ⟨1, 2, 0, 3, 1, 0, "", ""⟩ s' ∧ JoinsWait 0 ⟨1, 2, 0, 3, 1, 0, "", ""⟩ s' := by
  have hleast : IsLeast {v | ∃ p ∈ partsOf [5, 5, 6], slowAndFast.part.val p = v} 1 := by
    refine ⟨⟨0, by decide, rfl⟩, ?_⟩
    rintro v ⟨p, hp, rfl⟩
    revert p
    decide
  refine (batchMigrate_tracks_iff rfl (rebalancing_tracks slowAndFast_tracks hleast)
    rfl).mpr ?_ [⟨5, 6, 1⟩] (prefix_refl _)
  refine ⟨⟨?_, fun h => absurd h (by decide)⟩, fun _ _ => trivial⟩
  show NodeVersions.UpdateFits [5, 5, 6] slowAndFast ⟨5, 6, 1⟩
  unfold NodeVersions.UpdateFits
  rw [if_neg (by decide)]
  exact ⟨.inl (by decide), .inl (by decide)⟩

/-- Both partitions on node 5 at version 1; node 6 never had one. -/
def idleNode : NodeVersions :=
  ⟨.ofKeys [0, 1] 1, (Table.ofKeys [5, 6] 0).set 5 1, (Table.ofKeys [5, 6] 0).set 5 2⟩

theorem idleNode_tracks : idleNode.Tracks [5, 5] where
  partKeys := rfl
  owners := by decide
  tracked n hn := by
    have hcases : n = 5 := by
      obtain ⟨p, hown⟩ := exists_mem_of_ne_nil _ hn
      obtain ⟨hp, rfl⟩ := mem_owned.mp hown
      simpa using nodeOf_mem hp
    subst hcases
    exact ⟨by decide, by decide, by decide⟩

/-- The partition that goes to the idle node is not tracked there: the next report of the other
one takes the plan to version 2, while it is at version 1. -/
theorem batchMigrate_announces_early :
    Tracks 0 ⟨1, 2, 0, 3, 1, 0, "", ""⟩ (rebalancing [5, 5] idleNode) ∧
      ∃ s' sent c, (rebalancing [5, 5] idleNode).batchMigrate 0 [⟨5, 6, 1⟩] = .ok (s', sent) ∧
        orderlyJoins (s'.plan 0 ⟨1, 2, 0, 3, 1, 0, "", ""⟩) (s'.control 0) [0] = .ok c ∧
        c.versions = 2 ∧ c.update.part.val 1 = 1 ∧
        ¬ Tracks 0 ⟨1, 2, 0, 3, 1, 0, "", ""⟩ s' ∧ ¬ JoinsWait 0 ⟨1, 2, 0, 3, 1, 0, "", ""⟩ s' := by
  have hleast : IsLeast {v | ∃ p ∈ partsOf [5, 5], idleNode.part.val p = v} 1 := by
    refine ⟨⟨0, by decide, rfl⟩, ?_⟩
    rintro v ⟨p, hp, rfl⟩
    revert p
    decide
  refine ⟨rebalancing_tracks idleNode_tracks hleast, _, _, _, rfl, rfl, rfl, rfl, ?_, ?_⟩
  · intro h
    have := h.joinsWait [0] _ (by decide) rfl 1 (by decide)
    exact absurd this (by decide)
  · intro h
    have := h [0] _ (by decide) rfl 1 (by decide)
    exact absurd this (by decide)

end Scheduler

end Tangram
