import Tangram.Scheduler.ControlManager
import Tangram.Worker.Exclusion

/-!
# The version protocol

The least version of a plan is never computed: it follows from the counters of
the nodes.  With the reports of the partitions in any order,

    s.versions = the least version of all update partitions
    the k-th version is announced  ↔  every update partition has reported it
    the announcements are kUpdateVersion 1, …, kUpdateVersion (N - 1), kTerminatePlan

and a controller that is sent these in this order passes the checks of
`UpdateVersion`.
-/

namespace Tangram

open StepRun List

namespace ControlManager

variable {plan : Plan} {s : ControlManager}

/-! ## Setting up -/

variable (plan) in
/-- The state after the last `kSetup`: `kStart` is sent and `Init` has run. -/
def started : ControlManager :=
  init plan (sendToAllControllers { runPlan with isSetup := plan.nodes.toFinset } .kStart)

variable (plan) in
def setupMsg (n : Int) : ControllerMsg := ⟨.kSetup, -1, n, plan.planId, -1⟩

theorem run_setup_from (seen l : List Int) (hl : l ≠ []) (hnd : (seen ++ l).Nodup)
    (hlen : (seen ++ l).length = plan.nodes.length) :
    run (control plan) { runPlan with isSetup := seen.toFinset } (l.map (setupMsg plan)) =
      .ok (init plan
        (sendToAllControllers { runPlan with isSetup := (seen ++ l).toFinset } .kStart)) := by
  induction l generalizing seen with
  | nil => exact absurd rfl hl
  | cons n l ih =>
    have hins : insert n seen.toFinset = (seen ++ [n]).toFinset := by
      ext x
      simp
    rw [append_cons] at hnd hlen ⊢
    have hcard := toFinset_card_of_nodup (List.Nodup.of_append_left hnd)
    rw [map_cons, run, control, setupMsg]
    simp only [hins, hcard]
    cases l with
    | nil =>
      rw [append_nil] at hlen ⊢
      rw [if_pos hlen]
      rfl
    | cons n' l =>
      -- somebody is still to come
      have hfew : (seen ++ [n]).length ≠ plan.nodes.length := by
        have hmore := length_append.symm.trans hlen
        rw [length_cons] at hmore
        omega
      rw [if_neg hfew]
      exact ih (seen ++ [n]) (by simp) hnd hlen

/-- Whatever the order in which the nodes report, the plan starts when all have. -/
theorem run_setup (order : List Int) (hp : order.Perm plan.nodes) (hnd : plan.nodes.Nodup)
    (hne : plan.nodes ≠ []) :
    run (control plan) runPlan (order.map (setupMsg plan)) = .ok (started plan) := by
  have hord : order ≠ [] := by
    rintro rfl
    exact hne (nil_perm.mp hp)
  have h := run_setup_from [] order hord (hp.nodup_iff.mpr hnd) hp.length_eq
  rw [nil_append, toFinset_eq_of_perm _ _ hp] at h
  exact h

/-! ## The least version -/

variable (plan) in
/-- What is sent to all controllers when version `k + 1` is reached. -/
def broadcastOf (k : Nat) : Broadcast :=
  if (k : Int) + 1 = plan.numIter then .kTerminatePlan else .kUpdateVersion (k + 1)

/-- The version of the plan is the least one, and each one up to it has been announced. -/
structure Inv (plan : Plan) (s : ControlManager) : Prop where
  update : s.update.Inv plan.nodes plan.updatePartToNode
  le : ∀ p ∈ partsOf plan.updatePartToNode, s.versions ≤ s.update.part.val p
  attained : ∃ p ∈ partsOf plan.updatePartToNode, s.update.part.val p = s.versions
  nonneg : 0 ≤ s.versions
  broadcasts : s.broadcasts =
    [.kSetup, .kStart] ++ (List.range s.versions.toNat).map (broadcastOf plan)

theorem inv_started (hparts : plan.updatePartToNode ≠ []) : Inv plan (started plan) where
  update := NodeVersions.inv_init _ _
  le _ _ := Int.le_refl 0
  attained := by
    have hlen := length_pos_iff.mpr hparts
    exact ⟨0, mem_partsOf.mpr (by omega), rfl⟩
  nonneg := Int.le_refl 0
  broadcasts := rfl

theorem Inv.isLeast (h : Inv plan s) :
    IsLeast {v | ∃ p ∈ partsOf plan.updatePartToNode, s.update.part.val p = v} s.versions := by
  refine ⟨h.attained, ?_⟩
  rintro v ⟨p, hp, rfl⟩
  exact h.le p hp

section Join

variable (hnodes : ∀ n ∈ plan.updatePartToNode, n ∈ plan.nodes)
include hnodes

theorem mem_nodes_of_owned {n : Int} (ho : owned plan.updatePartToNode n ≠ []) :
    n ∈ plan.nodes := by
  obtain ⟨q, hq⟩ := exists_mem_of_ne_nil _ ho
  obtain ⟨hpart, rfl⟩ := mem_owned.mp hq
  exact hnodes _ (nodeOf_mem hpart)

/-- `allPassed` skips exactly the nodes without partitions. -/
theorem allPassed_iff (h : s.update.Inv plan.nodes plan.updatePartToNode) :
    s.allPassed = true ↔
      ∀ n, owned plan.updatePartToNode n ≠ [] → s.update.node.val n ≠ s.versions := by
  simp only [allPassed, h.nodeKeys, all_eq_true, Bool.or_eq_true, decide_eq_true_eq]
  constructor
  · intro hall n ho
    have hpos := (h.some n ho).pos
    rcases hall n (mem_nodes_of_owned hnodes ho) with h0 | hne
    · omega
    · exact hne
  · intro hall n _
    by_cases ho : owned plan.updatePartToNode n = []
    · exact .inl (h.none n ho)
    · exact .inr (hall n ho)

omit hnodes in
/-- A node of a partition at the least version is at it. -/
theorem Inv.exists_node (h : Inv plan s) :
    ∃ n, owned plan.updatePartToNode n ≠ [] ∧ s.update.node.val n = s.versions := by
  obtain ⟨q, hq, hval⟩ := h.attained
  have hown := mem_owned_nodeOf hq
  have hne := ne_nil_of_mem hown
  have hmin := h.update.some _ hne
  refine ⟨_, hne, ?_⟩
  obtain ⟨q', hq', hval'⟩ := hmin.exists_eq
  have h₁ := hmin.le q hown
  have h₂ := h.le q' (mem_owned.mp hq').1
  omega

omit hnodes in
/-- `UpdateVersion` cannot fail when a plan with checkpoints has a path for them. -/
theorem updateVersion_eq (hcp : plan.checkpointInterval ≠ 0 → plan.checkpointPath ≠ "")
    (s : ControlManager) : ∃ cps, updateVersion plan s =
      .ok (announce plan { s with versions := s.versions + 1, addedCps := cps }) := by
  unfold updateVersion
  by_cases hdue : plan.checkpointInterval ≠ 0 ∧
      (s.versions + 1).tmod plan.checkpointInterval = 0
  · refine ⟨s.addedCps ++ [cpUrl plan ((s.versions + 1).tdiv plan.checkpointInterval)], ?_⟩
    simp only [hdue, hcp hdue.1, addCp, check, Bind.bind, Except.bind, pure, Except.pure,
      ne_eq, not_false_eq_true, and_self, if_true]
  · refine ⟨s.addedCps, ?_⟩
    simp only [hdue, Bind.bind, Except.bind, pure, Except.pure, if_false]

omit hnodes in
theorem announce_update (s : ControlManager) : (announce plan s).update = s.update := by
  unfold announce sendToAllControllers
  split <;> rfl

omit hnodes in
theorem announce_versions (s : ControlManager) : (announce plan s).versions = s.versions := by
  unfold announce sendToAllControllers
  split <;> rfl

omit hnodes in
theorem announce_broadcasts {s : ControlManager} {k : Nat} (hk : s.versions = k + 1) :
    (announce plan s).broadcasts = s.broadcasts ++ [broadcastOf plan k] := by
  unfold announce sendToAllControllers broadcastOf
  rw [hk]
  split <;> rfl

/-- **One report of an updated partition.**  No check fails and the version stays the least. -/
theorem Inv.join (h : Inv plan s) (hcp : plan.checkpointInterval ≠ 0 → plan.checkpointPath ≠ "")
    {p : Int} (hp : p ∈ partsOf plan.updatePartToNode) :
    ∃ s', handleUpdateJoinVersion plan s p (s.update.part.val p + 1) = .ok s' ∧ Inv plan s' ∧
      s'.update.part.val = Function.update s.update.part.val p (s.update.part.val p + 1) := by
  obtain ⟨rolled, t, hadv, ht, hpart, hnode, hother⟩ :=
    NodeVersions.advance_spec .kJoin h.update hnodes hp
  have hle : ∀ q ∈ partsOf plan.updatePartToNode, s.versions ≤ t.part.val q := by
    rw [hpart]
    exact MinCount.le_incr h.le
  have hnle : ∀ n, owned plan.updatePartToNode n ≠ [] → s.versions ≤ t.node.val n := by
    intro n ho
    obtain ⟨q, hq, hval⟩ := (ht.some n ho).exists_eq
    have := hle q (mem_owned.mp hq).1
    omega
  -- while some node is at the version of the plan, so is one of its partitions
  have hstay : ∀ n, owned plan.updatePartToNode n ≠ [] → t.node.val n = s.versions →
      Inv plan { s with update := t } := by
    intro n ho hn
    obtain ⟨q, hq, hval⟩ := (ht.some n ho).exists_eq
    exact { h with update := ht, le := hle, attained := ⟨q, (mem_owned.mp hq).1, hval.trans hn⟩ }
  obtain ⟨n₀, ho₀, hn₀⟩ := h.exists_node
  unfold handleUpdateJoinVersion
  simp only [hadv, Bind.bind, Except.bind]
  cases rolled with
  | false =>
    refine ⟨_, rfl, hstay n₀ ho₀ ?_, hpart⟩
    by_cases hn : n₀ = nodeOf plan.updatePartToNode p
    · rw [hn, hnode, ← hn, hn₀]
      simp
    · rw [hother n₀ hn, hn₀]
  | true =>
    simp only [if_true]
    have hall := allPassed_iff (s := { s with update := t }) hnodes ht
    by_cases hpass : ({ s with update := t } : ControlManager).allPassed = true
    · rw [if_pos hpass]
      obtain ⟨cps, hup⟩ := updateVersion_eq hcp { s with update := t }
      have hgone := hall.mp hpass
      have hk : s.versions + 1 = (s.versions.toNat : Int) + 1 := by
        have := h.nonneg
        omega
      refine ⟨_, hup, ⟨?_, ?_, ?_, ?_, ?_⟩, ?_⟩
      · rw [announce_update]
        exact ht
      · intro q hq
        rw [announce_update, announce_versions]
        show s.versions + 1 ≤ t.part.val q
        have hown := mem_owned_nodeOf hq
        have hne := ne_nil_of_mem hown
        have h₁ := (ht.some _ hne).le q hown
        have h₂ := hnle _ hne
        have h₃ : t.node.val (nodeOf plan.updatePartToNode q) ≠ s.versions := hgone _ hne
        omega
      · rw [announce_update, announce_versions]
        -- the node that was at the old version is the one that moved
        have hn : n₀ = nodeOf plan.updatePartToNode p := by
          by_contra hn
          exact hgone n₀ ho₀ ((hother n₀ hn).trans hn₀)
        obtain ⟨q, hq, hval⟩ := (ht.some n₀ ho₀).exists_eq
        refine ⟨q, (mem_owned.mp hq).1, ?_⟩
        show t.part.val q = s.versions + 1
        rw [hval, hn, hnode, ← hn, hn₀]
        rfl
      · rw [announce_versions]
        show 0 ≤ s.versions + 1
        have := h.nonneg
        omega
      · rw [announce_broadcasts hk, announce_versions]
        show s.broadcasts ++ _ = _ ++ (List.range (s.versions + 1).toNat).map _
        have hsucc : (s.versions + 1).toNat = s.versions.toNat + 1 := by
          have := h.nonneg
          omega
        rw [hsucc, range_succ, map_append, h.broadcasts, append_assoc]
        rfl
      · rw [announce_update]
        exact hpart
    · rw [if_neg hpass]
      have hsome : ∃ n, owned plan.updatePartToNode n ≠ [] ∧ t.node.val n = s.versions := by
        by_contra hno
        push Not at hno
        exact hpass (hall.mpr hno)
      obtain ⟨n, ho, hn⟩ := hsome
      exact ⟨_, rfl, hstay n ho hn, hpart⟩

end Join

/-! ## Runs of reports -/

variable (plan) in
/-- The reports of the partitions `ids`, one after the other: each reports the version after
its last one, which is `last p` at the start. -/
def joinReports (last : Int → Int) : List Int → List ControllerMsg
  | [] => []
  | p :: ids =>
    ⟨.kJoin, last p + 1, nodeOf plan.updatePartToNode p, plan.planId, p⟩ ::
      joinReports (Function.update last p (last p + 1)) ids

/-- What has been sent to all controllers after `kStart`. -/
def announced (s : ControlManager) : List Broadcast := s.broadcasts.drop 2

theorem run_joinReports (hnodes : ∀ n ∈ plan.updatePartToNode, n ∈ plan.nodes)
    (hcp : plan.checkpointInterval ≠ 0 → plan.checkpointPath ≠ "") (ids : List Int)
    (hids : ∀ p ∈ ids, p ∈ partsOf plan.updatePartToNode) (h : Inv plan s) :
    ∃ s', run (control plan) s (joinReports plan s.update.part.val ids) = .ok s' ∧ Inv plan s' ∧
      ∀ p, s'.update.part.val p = s.update.part.val p + ids.count p := by
  induction ids generalizing s with
  | nil => exact ⟨s, rfl, h, fun p => by simp⟩
  | cons p ids ih =>
    obtain ⟨s₁, h₁, hinv, hpart⟩ := h.join hnodes hcp (hids p mem_cons_self)
    obtain ⟨s', hrun, hinv', hcount⟩ := ih (fun q hq => hids q (mem_cons_of_mem _ hq)) hinv
    refine ⟨s', run_cons_ok.mpr ⟨s₁, h₁, hpart ▸ hrun⟩, hinv', fun q => ?_⟩
    rw [hcount, hpart, count_cons]
    by_cases hq : q = p
    · subst hq
      simp
      omega
    · simp [hq, Ne.symm hq]

theorem Inv.announced_eq (h : Inv plan s) :
    s.announced = (List.range s.versions.toNat).map (broadcastOf plan) := by
  rw [announced, h.broadcasts]
  rfl

variable (plan) in
/-- All the announcements of a plan: each version but the last, then the end. -/
def planBroadcasts : List Broadcast :=
  (List.range (plan.numIter.toNat - 1)).map (fun k => .kUpdateVersion (k + 1)) ++ [.kTerminatePlan]

theorem map_broadcastOf (hN : 1 ≤ plan.numIter) :
    (List.range plan.numIter.toNat).map (broadcastOf plan) = planBroadcasts plan := by
  have hsucc : plan.numIter.toNat = (plan.numIter.toNat - 1) + 1 := by omega
  have hlast : ((plan.numIter.toNat - 1 : Nat) : Int) + 1 = plan.numIter := by omega
  rw [planBroadcasts, hsucc, range_succ, map_append, map_singleton]
  congr 1
  · rw [Nat.add_sub_cancel]
    refine map_congr_left fun k hk => ?_
    rw [mem_range] at hk
    rw [broadcastOf, if_neg (by omega)]
  · rw [broadcastOf, if_pos hlast]

theorem Inv.announced_take (h : Inv plan s) (hN : 1 ≤ plan.numIter) :
    s.announced.take plan.numIter.toNat = (planBroadcasts plan).take s.announced.length := by
  rw [h.announced_eq, ← map_broadcastOf hN, ← map_take, ← map_take, take_range,
    take_range, length_map, length_range, Nat.min_comm]

end ControlManager

/-! ## The controllers -/

namespace PlanController

variable {β : Type} {c : Spec}

/-- The versions that the actions announce to a controller. -/
def versionUpdates (as : List (Action β)) : List Int :=
  as.filterMap fun
    | .kUpdateVersion v => some v
    | _ => none

theorem minVersion_step {s s' : PlanController β} {a : Action β} (h : step c s a = .ok s') :
    s'.minVersion = (versionUpdates [a]).getLastD s.minVersion := by
  refine step_induct (P := fun t => t.minVersion = _) h (fun s₁ hh => ?_) fun t u ht hu => ?_
  · cases hh with
    | noop a ha hv =>
      cases a with
      | kUpdateVersion v => exact absurd rfl (hv v)
      | _ => rfl
    | _ => rfl
  · cases hu <;> exact ht

/-- A controller that is announced `k + 1`, `k + 2`, … below the number of iterations passes
both checks of `UpdateVersion`. -/
theorem run_versionUpdates (as : List (Action β)) {s : PlanController β} (hs : Reachable c s)
    (hseq : ∀ (i : Nat) (v : Int), (versionUpdates as)[i]? = some v →
      v = s.minVersion + i + 1 ∧ v < c.expectedNumIter) {e : Check}
    (he : run (step c) s as = .error e) : e ≠ .updateVersionLt ∧ e ≠ .updateVersionNext := by
  induction as generalizing s with
  | nil => cases he
  | cons a as ih =>
    obtain ⟨hl, hx⟩ := excl_stable.reachIf hs
    unfold run at he
    cases hstep : step c s a with
    | error e' =>
      rw [hstep] at he
      cases Except.error.inj he
      cases a with
      | kUpdateVersion v =>
        obtain ⟨hv, hlt⟩ := hseq 0 v rfl
        rcases updateVersion_error hl hstep with ⟨-, hne⟩ | ⟨-, hne⟩
        · exact absurd hlt hne
        · omega
      | _ =>
        have hmem := step_error hl hx hstep
        constructor <;> rintro rfl <;> simp [Action.checks, Check.ofJoin] at hmem
    | ok t =>
      rw [hstep] at he
      have hmin := minVersion_step hstep
      refine ih (.tail hs trivial hstep) (fun i v hi => ?_) he
      cases a with
      | kUpdateVersion w =>
        obtain ⟨hw, -⟩ := hseq 0 w rfl
        obtain ⟨hv, hlt⟩ := hseq (i + 1) v hi
        have hmin : t.minVersion = w := hmin
        refine ⟨?_, hlt⟩
        push_cast at hv
        omega
      | _ =>
        have hmin : t.minVersion = s.minVersion := hmin
        rw [hmin]
        exact hseq i v hi

end PlanController

/-! ## The protocol -/

namespace ControlManager

open PlanController

variable {plan : Plan} {s : ControlManager}

theorem Inv.le_length_announced (h : Inv plan s) (k : Nat) :
    k ≤ s.announced.length ↔
      ∀ p ∈ partsOf plan.updatePartToNode, (k : Int) ≤ s.update.part.val p := by
  have hlen : s.announced.length = s.versions.toNat := by simp [h.announced_eq]
  have h0 := h.nonneg
  rw [hlen]
  constructor
  · intro hk p hp
    have := h.le p hp
    omega
  · intro hall
    obtain ⟨p, hp, hval⟩ := h.attained
    have := hall p hp
    omega

/-- What a controller is announced over a FIFO channel counts up from 1 and stays below the
number of iterations. -/
theorem Inv.announced_seq (h : Inv plan s) {vs : List Int}
    (hvs : vs.map .kUpdateVersion <+: s.announced.take plan.numIter.toNat) {i : Nat} {v : Int}
    (hi : vs[i]? = some v) : v = i + 1 ∧ v < plan.numIter := by
  have hget : (s.announced.take plan.numIter.toNat)[i]? = some (.kUpdateVersion v) := by
    obtain ⟨l, hl⟩ := hvs
    have hlt := (List.getElem?_eq_some_iff.mp hi).1
    rw [← hl, List.getElem?_append_left (by simpa using hlt), List.getElem?_map, hi]
    rfl
  have hlt : i < plan.numIter.toNat := by
    have := (List.getElem?_eq_some_iff.mp hget).1
    rw [length_take] at this
    omega
  rw [List.getElem?_take_of_lt hlt, h.announced_eq, List.getElem?_map] at hget
  obtain ⟨k, hk, hb⟩ := Option.map_eq_some_iff.mp hget
  have hk : k = i := by
    obtain ⟨_, hk⟩ := List.getElem?_eq_some_iff.mp hk
    rw [getElem_range] at hk
    exact hk.symm
  subst hk
  unfold broadcastOf at hb
  split at hb
  · cases hb
  · next hne =>
    have hv := Broadcast.kUpdateVersion.inj hb
    omega

/-- **The version protocol.**  Let the update partitions report their versions one at a time,
in any order.  No check of the manager fails; every node that owns partitions is at the least
of their versions, with the number of partitions at it; the plan is at the least version of all.
The `k`-th announcement is made when the last partition reports version `k`, the announcements
are those of the plan, and no controller that gets them in order fails a check of
`UpdateVersion`. -/
theorem version_protocol (plan : Plan) (hparts : plan.updatePartToNode ≠ [])
    (hnodes : ∀ n ∈ plan.updatePartToNode, n ∈ plan.nodes) (hN : 1 ≤ plan.numIter)
    (hcp : plan.checkpointInterval ≠ 0 → plan.checkpointPath ≠ "") (ids : List Int)
    (hids : ∀ p ∈ ids, p ∈ partsOf plan.updatePartToNode) :
    ∃ s, run (control plan) (started plan) (joinReports plan (fun _ => 0) ids) = .ok s ∧
      (∀ p, s.update.part.val p = ids.count p) ∧
      (∀ n, owned plan.updatePartToNode n ≠ [] →
        IsLeast {v | ∃ p ∈ owned plan.updatePartToNode n, s.update.part.val p = v}
          (s.update.node.val n) ∧
        s.update.count.val n = (owned plan.updatePartToNode n).countP
          fun p => s.update.part.val p = s.update.node.val n) ∧
      IsLeast {v | ∃ p ∈ partsOf plan.updatePartToNode, s.update.part.val p = v} s.versions ∧
      (∀ k : Nat, k ≤ s.announced.length ↔
        ∀ p ∈ partsOf plan.updatePartToNode, (k : Int) ≤ s.update.part.val p) ∧
      s.announced.take plan.numIter.toNat = (planBroadcasts plan).take s.announced.length ∧
      ((∀ p ∈ partsOf plan.updatePartToNode, (ids.count p : Int) ≤ plan.numIter) →
        s.announced = (planBroadcasts plan).take s.announced.length) ∧
      (∀ (β : Type) (c : Spec) (as : List (Action β)) (e : Check),
        c.expectedNumIter = plan.numIter →
        (versionUpdates as).map .kUpdateVersion <+: s.announced.take plan.numIter.toNat →
        run (step c) (setup c) as = .error e → e ≠ .updateVersionLt ∧ e ≠ .updateVersionNext) := by
  obtain ⟨s, hrun, hinv, hcount⟩ := run_joinReports hnodes hcp ids hids (inv_started hparts)
  have hcount : ∀ p, s.update.part.val p = ids.count p := by
    intro p
    rw [hcount p]
    exact Int.zero_add _
  refine ⟨s, hrun, hcount, fun n ho => ?_, hinv.isLeast, hinv.le_length_announced,
    hinv.announced_take hN, fun hmost => ?_, fun β c as e hc hpre he => ?_⟩
  · have hmin := hinv.update.some n ho
    exact ⟨hmin.isLeast, hmin.count⟩
  · rw [← hinv.announced_take hN, take_of_length_le]
    by_contra hlen
    obtain ⟨p, hp, hval⟩ := hinv.attained
    have h₁ := (hinv.le_length_announced (plan.numIter.toNat + 1)).mp (by omega) p hp
    have h₂ := hmost p hp
    rw [hcount p] at h₁
    push_cast at h₁
    omega
  · refine run_versionUpdates as .refl (fun i v hi => ?_) he
    obtain ⟨hv, hlt⟩ := hinv.announced_seq hpre hi
    exact ⟨by simpa [setup] using hv, hc ▸ hlt⟩

/-- Three partitions on two of three nodes, two iterations. -/
def threeNodes : Plan where
  planId := 0
  nodes := [1, 2, 3]
  mapPartToNode := [1]
  updatePartToNode := [1, 1, 3]
  updateCollectionId := 1
  numIter := 2
  checkpointInterval := 0
  checkpointPath := ""

theorem run_setup_threeNodes :
    run (control threeNodes) runPlan ([3, 1, 2].map (setupMsg threeNodes)) =
      .ok (started threeNodes) :=
  run_setup [3, 1, 2] (by decide) (by decide) (by decide)

theorem version_protocol_threeNodes :
    ∃ s, run (control threeNodes) (started threeNodes)
        (joinReports threeNodes (fun _ => 0) [0, 0, 2, 1, 1, 2]) = .ok s ∧
      s.announced = [.kUpdateVersion 1, .kTerminatePlan] := by
  obtain ⟨s, hrun, hcount, -, -, hlen, -, hall, -⟩ := version_protocol threeNodes (by decide)
    (by decide) (by decide) (by decide) [0, 0, 2, 1, 1, 2] (by decide)
  have hmost := hall (by decide)
  have htwo : 2 ≤ s.announced.length := (hlen 2).mpr fun p hp => by
    rw [hcount]
    revert p
    decide
  refine ⟨s, hrun, hmost.trans (take_of_length_le htwo)⟩

end ControlManager

end Tangram
