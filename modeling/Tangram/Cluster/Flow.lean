import Tangram.Cluster.ControlPlane
import Tangram.Worker.Versions

/-!
# Every map output reaches its partition once

The output of map partition `u` at version `w` for update partition `p` is one
token.  It is made when the map ends and is from then on in one place: with the
combiner of its node, at the controller of `p`, or dropped there because the plan
had ended (`Flow.tokens`).  So every controller of the cluster sees each output
at most once, and everything that is proved of a controller in such an
environment holds of it (`Flow.runs`).
-/

namespace Tangram

open StepRun

variable {K M O B : Type} {n : Int} {m : JoinMeta (List B)} {i : Nat}

namespace PlanController

variable {β : Type} {c : Spec} {s s' : PlanController β} {a : Action β}

/-- Only the end of a map adds to what has been mapped. -/
theorem mapped_step (h : step c s a = .ok s') (ha : ∀ i, a ≠ .endMap i) :
    s'.mapped = s.mapped := by
  refine step_induct (P := fun t => t.mapped = s.mapped) h (fun s₁ hh => ?_) fun t u ht hu => ?_
  · cases hh with
    | endMap i t hi hs => exact absurd rfl (ha i)
    | _ => rfl
  · cases hu <;> exact ht

theorem received_eq (hl : Layout c s) (h : step c s a = .ok s') (ha : ∀ m, a ≠ .kReceiveJoin m) :
    s'.received = s.received := by
  have hrec := received_step hl h
  cases a with
  | kReceiveJoin m => exact absurd rfl (ha m)
  | _ => exact hrec.trans (List.append_nil _)

/-- A map that ends its last look at `stop_updateing_partitions_` is recorded. -/
theorem endMap_mapped {t : MapTask} (hi : s.mapExecutor[i]? = some t) (hs : t.started = true)
    (hstop : s.stopUpdateingPartitions t.partId = none) :
    (endMap s i).mapped = s.mapped ++ [(t.partId, t.version)] := by
  simp [endMap, hi, hs, hstop]

end PlanController

namespace ControlPlane

open PlanController DelayedCombiner

variable {job : MapJoin K M O B} {s s' : ControlPlane K M B}

variable (job) in
/-- How often the output of `u` at version `w` for `p` is in the cluster. -/
def inSystem (s : ControlPlane K M B) (p w u : Int) : Nat :=
  (s.controller (job.home u)).combiner.carried p w u +
    tokensIn (s.controller (job.owner p)).pc.received p w u +
    tokensIn (s.controller (job.owner p)).dropped p w u

structure Flow (job : MapJoin K M O B) (s : ControlPlane K M B) : Prop where
  runs : ∀ n, ReachIf (job.spec n) (ArrivesOnce (job.spec n)) (s.controller n).pc
  out : ∀ n, Outgoing job n (s.controller n).combiner
  tokens : ∀ p ∈ job.updateParts, ∀ u ∈ job.mapParts, ∀ w,
    inSystem job s p w u = (s.controller (job.home u)).pc.mapped.count (u, w)

theorem flow_init : Flow job (init job : ControlPlane K M B) where
  runs _ := .refl
  out _ := outgoing_init
  tokens _ _ _ _ _ := rfl

section Facts

variable (h : Flow job s)
include h

theorem Flow.sound (n : Int) : Sound (job.spec n) (s.controller n).pc :=
  sound_stable.reachIf (h.runs n)

theorem Flow.maps (n : Int) : Maps (job.spec n) (s.controller n).pc :=
  (maps_stable.reachIf (h.runs n)).2

theorem Flow.arrivals (n : Int) : Arrivals (job.spec n) (s.controller n).pc :=
  (reachIf_induct (P := Arrivals (job.spec n)) (h.runs n) layout_stable
    ⟨fun _ hm => (by cases hm), fun _ _ _ => Nat.zero_le 1⟩
    (fun _ _ _ hl hP ha hh => arrivals_head hl hP ha hh)
    fun _ _ _ hP ht => arrivals_tail hP ht).2

theorem Flow.inSystem_le_one {p u w : Int} (hp : p ∈ job.updateParts) (hu : u ∈ job.mapParts) :
    inSystem job s p w u ≤ 1 := by
  rw [h.tokens p hp u hu w, (h.maps (job.home u)).mapped u w]
  split_ifs <;> omega

/-- What is sent has not been received. -/
theorem Flow.arrivesOnce (hm : m ∈ (s.controller n).combiner.sent) :
    ArrivesOnce (job.spec (job.owner m.partId)) (s.controller (job.owner m.partId)).pc
      (.kReceiveJoin m) := by
  have hsent := (h.out n).sent m hm
  refine ⟨hsent.version, fun u hu => ?_⟩
  obtain ⟨hmem, rfl⟩ := hsent.upstream u hu
  obtain ⟨h0, hlt⟩ := MapJoin.mem_mapParts.mp hmem
  refine ⟨h0, hlt, ?_⟩
  have hone := h.inSystem_le_one (w := m.version) hsent.part hmem
  have hpos : 0 < tokensIn (s.controller (job.home u)).combiner.sent m.partId m.version u :=
    tokensIn_pos.mpr ⟨m, hm, ⟨rfl, rfl⟩, hu⟩
  have hle := countP_covers_le (p := m.partId) (w := m.version) (u := u)
    (s.controller (job.owner m.partId)).pc.received
  unfold inSystem carried at hone
  omega

end Facts

/-! ## Every step keeps the tokens -/

section Moves

variable {x : Controller K M B} {e : PlaneEvent} {d : DelayedCombiner K M B}

/-- A change at one node that receives nothing, with as many new outputs as maps ended. -/
theorem Flow.set (h : Flow job s) (hruns : ReachIf (job.spec n) (ArrivesOnce (job.spec n)) x.pc)
    (hout : Outgoing job n x.combiner)
    (hbal : ∀ p ∈ job.updateParts, ∀ u w, x.combiner.carried p w u + (s.controller n).pc.mapped.count (u, w) = (s.controller n).combiner.carried p w u + x.pc.mapped.count (u, w))
    (hrec : x.pc.received = (s.controller n).pc.received)
    (hdrop : x.dropped = (s.controller n).dropped) : Flow job (s.set n x) := by
  refine ⟨fun k => ?_, fun k => ?_, fun p hp u hu w => ?_⟩
  · rw [set_controller]
    split
    · next hk => exact hk ▸ hruns
    · exact h.runs k
  · rw [set_controller]
    split
    · next hk => exact hk ▸ hout
    · exact h.out k
  · have htok := h.tokens p hp u hu w
    have hrec' : ((s.set n x).controller (job.owner p)).pc.received =
        (s.controller (job.owner p)).pc.received := by
      rw [set_controller]
      split
      · next hk => rw [hrec, hk]
      · rfl
    have hdrop' : ((s.set n x).controller (job.owner p)).dropped =
        (s.controller (job.owner p)).dropped := by
      rw [set_controller]
      split
      · next hk => rw [hdrop, hk]
      · rfl
    unfold inSystem at htok ⊢
    rw [hrec', hdrop', set_controller]
    split
    · next hk =>
      have := hbal p hp u w
      rw [hk] at htok
      omega
    · exact htok

theorem carried_congr {d d' : DelayedCombiner K M B} (hstore : d'.store = d.store)
    (hexec : d'.executor = d.executor) (hsent : d'.sent = d.sent) (p w u : Int) :
    d'.carried p w u = d.carried p w u := by
  rw [carried, carried, hstore, hexec, hsent]

theorem Quiet.ne_receive {β : Type} {e : PlaneEvent} {a : PlanController.Action β}
    (ha : Quiet e a) (m : JoinMeta β) : a ≠ .kReceiveJoin m := by
  rintro rfl
  cases e <;> exact ha

theorem Quiet.ne_endMap {β : Type} {a : PlanController.Action β} (ha : Quiet e a) (i : Nat) :
    a ≠ .endMap i := by
  rintro rfl
  cases e <;> exact ha

/-- An action other than a join message is no arrival. -/
theorem arrivesOnce_of_ne {β : Type} {c : Spec} {t : PlanController β}
    {a : PlanController.Action β} (ha : ∀ m, a ≠ .kReceiveJoin m) : ArrivesOnce c t a := by
  cases a with
  | kReceiveJoin m => exact absurd rfl (ha m)
  | _ => trivial

theorem Flow.act (h : Flow job s) {a : PlanController.Action (List B)}
    (hr : ∀ m, a ≠ .kReceiveJoin m) (hm : ∀ i, a ≠ .endMap i)
    (hstore : x.combiner.store = (s.controller n).combiner.store)
    (hexec : x.combiner.executor = (s.controller n).combiner.executor)
    (hsent : x.combiner.sent = (s.controller n).combiner.sent)
    (hdrop : x.dropped = (s.controller n).dropped)
    (hstep : PlanController.step (job.spec n) (s.controller n).pc a = .ok x.pc) :
    Flow job (s.set n x) := by
  have hout := h.out n
  refine h.set (.tail (h.runs n) (arrivesOnce_of_ne hr) hstep)
    ⟨hstore ▸ hout.store, hstore ▸ hout.short, hexec ▸ hout.executor, hsent ▸ hout.sent⟩
    (fun p _ u w => ?_) (received_eq (h.sound n).layout hstep hr) hdrop
  rw [carried_congr hstore hexec hsent, mapped_step hstep hm]

/-- The combiner alone moves what it has. -/
theorem Flow.combiner (h : Flow job s) (hout : Outgoing job n d)
    (hcar : ∀ p w u, d.carried p w u = (s.controller n).combiner.carried p w u) :
    Flow job (s.set n { s.controller n with combiner := d }) :=
  h.set (h.runs n) hout (fun p _ u w => by rw [hcar]) rfl rfl

theorem Flow.endMap (h : Flow job s) {t : MapTask}
    (hi : (s.controller n).pc.mapExecutor[i]? = some t) (hs : t.started = true)
    (hstop : (s.controller n).pc.stopUpdateingPartitions t.partId = none)
    (hd : (s.controller n).combiner.addMapOutput job n t.partId t.version = .ok d) :
    Flow job (s.set n { s.controller n with
      combiner := d, pc := PlanController.endMap (s.controller n).pc i }) := by
  have hmem := List.mem_of_getElem? hi
  have hlocal : t.partId ∈ job.mapParts ∧ job.home t.partId = n := by
    have huse : t.use ∈ (s.controller n).pc.inUse :=
      (inUse_eraseMap _ hi).mem_iff.mpr List.mem_cons_self
    exact MapJoin.mem_spec_map.mp ((h.sound n).layout.inUse _ huse)
  have hver : 0 ≤ t.version := by
    rw [(h.maps n).task t hmem]
    exact (h.maps n).nonneg t.partId
  have hstep : PlanController.step (job.spec n) (s.controller n).pc (.endMap i) =
      .ok (PlanController.endMap (s.controller n).pc i) := rfl
  refine h.set (.tail (h.runs n) (arrivesOnce_of_ne (by simp)) hstep)
    ((h.out n).addMapOutput hver hlocal.1 hlocal.2 hd) (fun p hp u w => ?_)
    (received_eq (h.sound n).layout hstep (by simp)) rfl
  show d.carried p w u + _ = _ + (PlanController.endMap (s.controller n).pc i).mapped.count (u, w)
  rw [carried_addMapOutput hd hp, endMap_mapped hi hs hstop, List.count_append,
    List.count_singleton]
  simp only [beq_iff_eq, Prod.mk.injEq, and_comm]
  omega

theorem endNoMap_mapped (h : x.endedMap i = none) :
    (PlanController.endMap x.pc i).mapped = x.pc.mapped := by
  unfold PlanController.endMap
  split
  · rfl
  · next t hi =>
    split
    · rfl
    · next hs =>
      split
      · rfl
      · next hstop =>
        -- such a task would have reached the combiner
        have hstop := Option.not_isSome_iff_eq_none.mp hstop
        simp [Controller.endedMap, hi, hs, hstop] at h

section Deliver

variable {n : Int} {i : Nat} {m : JoinMeta (List B)}

variable (job) in
/-- What a message adds to the outputs of `(p, w, u)`. -/
def share (m : JoinMeta (List B)) (p w u : Int) : Nat :=
  if (m.partId, m.version) = (p, w) then m.ids.count u else 0

theorem carried_takeSent (h : Flow job s) (hi : (s.controller n).combiner.sent[i]? = some m)
    (p w u : Int) :
    (s.controller (job.home u)).combiner.carried p w u =
      ((s.set n ((s.controller n).takeSent i)).controller (job.home u)).combiner.carried p w u +
        share m p w u := by
  rw [set_controller]
  split
  · next hk =>
    rw [hk]
    unfold carried
    rw [tokensIn_take hi]
    simp only [Controller.takeSent, share]
    omega
  · next hk =>
    -- all the outputs of a message of `n` are of maps of `n`
    have hno : u ∉ m.ids := fun hu =>
      hk (((h.out n).sent m (List.mem_of_getElem? hi)).upstream u hu).2
    have hzero : share m p w u = 0 := by
      unfold share
      split
      · exact List.count_eq_zero.mpr hno
      · rfl
    rw [hzero, Nat.add_zero]

theorem outgoing_takeSent (h : Flow job s) (k : Int) :
    Outgoing job k ((s.set n ((s.controller n).takeSent i)).controller k).combiner := by
  rw [set_controller]
  split
  · next hk =>
    subst hk
    exact { h.out k with sent := fun m hm => (h.out k).sent m (List.mem_of_mem_eraseIdx hm) }
  · exact h.out k

/-- Every message to another partition than `p` leaves `p` alone. -/
theorem share_of_ne {p w u : Int} (hp : job.owner p ≠ job.owner m.partId) : share m p w u = 0 := by
  unfold share
  split
  · next hk =>
    obtain ⟨rfl, rfl⟩ := Prod.mk.inj hk
    exact absurd rfl hp
  · rfl

theorem tokensIn_snoc (ms : List (JoinMeta (List B))) (p w u : Int) :
    tokensIn (ms ++ [m]) p w u = tokensIn ms p w u + share m p w u := by
  rw [tokensIn_append, tokensIn_cons, tokensIn_nil, Nat.add_zero]
  rfl

/-- A message reaches the node of its partition. -/
theorem Flow.move_message (h : Flow job s) (hi : (s.controller n).combiner.sent[i]? = some m)
    {y : Controller K M B}
    (hy : y.combiner =
      ((s.set n ((s.controller n).takeSent i)).controller (job.owner m.partId)).combiner)
    (hruns : ReachIf (job.spec (job.owner m.partId)) (ArrivesOnce (job.spec (job.owner m.partId)))
      y.pc)
    (hmap : y.pc.mapped = (s.controller (job.owner m.partId)).pc.mapped)
    (hgot : ∀ p w u, tokensIn y.pc.received p w u + tokensIn y.dropped p w u =
      tokensIn (s.controller (job.owner m.partId)).pc.received p w u +
        tokensIn (s.controller (job.owner m.partId)).dropped p w u + share m p w u) :
    Flow job ((s.set n ((s.controller n).takeSent i)).set (job.owner m.partId) y) := by
  have hcomb : ∀ k, (((s.set n ((s.controller n).takeSent i)).set (job.owner m.partId)
      y).controller k).combiner =
      ((s.set n ((s.controller n).takeSent i)).controller k).combiner := by
    intro k
    rw [set_controller]
    split
    · next hk => rw [hy, hk]
    · rfl
  refine ⟨fun k => ?_, fun k => ?_, fun p hp u hu w => ?_⟩
  · rw [set_controller]
    split
    · next hk => exact hk ▸ hruns
    · rw [(set_takeSent_pc s n k i).1]
      exact h.runs k
  · rw [hcomb k]
    exact outgoing_takeSent h k
  · have htok := h.tokens p hp u hu w
    have hcar := carried_takeSent h hi p w u
    have hmapped : (((s.set n ((s.controller n).takeSent i)).set (job.owner m.partId)
        y).controller (job.home u)).pc.mapped = (s.controller (job.home u)).pc.mapped := by
      rw [set_controller]
      split
      · next hk => rw [hmap, hk]
      · rw [(set_takeSent_pc s n _ i).1]
    unfold inSystem at htok ⊢
    rw [hcomb, hmapped]
    by_cases hk : job.owner p = job.owner m.partId
    · have := hgot p w u
      rw [hk] at htok ⊢
      rw [set_controller_self]
      omega
    · rw [set_controller_ne _ _ hk, (set_takeSent_pc s n _ i).1, (set_takeSent_pc s n _ i).2.2.1]
      rw [share_of_ne hk] at hcar
      omega

end Deliver

theorem Flow.deliver (h : Flow job s) (hi : (s.controller n).combiner.sent[i]? = some m)
    {pc : PlanController (List B)}
    (hstep : PlanController.step (job.spec (job.owner m.partId)) (s.controller (job.owner m.partId)).pc (.kReceiveJoin m) = .ok pc) :
    Flow job ((s.set n ((s.controller n).takeSent i)).set (job.owner m.partId)
      { (s.set n ((s.controller n).takeSent i)).controller (job.owner m.partId) with pc := pc }) := by
  have hmem := List.mem_of_getElem? hi
  have hlocal := MapJoin.mem_spec_update.mpr ⟨((h.out n).sent m hmem).part, rfl⟩
  have hrec := received_step (h.sound _).layout hstep
  rw [deliveries_kReceiveJoin hlocal] at hrec
  refine h.move_message hi rfl (.tail (h.runs _) (h.arrivesOnce hmem) hstep)
    (mapped_step hstep (by simp)) fun p w u => ?_
  show tokensIn pc.received p w u + tokensIn ((s.set n ((s.controller n).takeSent i)).controller
    (job.owner m.partId)).dropped p w u = _
  rw [(set_takeSent_pc s n _ i).2.2.1, hrec, tokensIn_snoc]
  omega

theorem Flow.drop (h : Flow job s) (hi : (s.controller n).combiner.sent[i]? = some m) :
    Flow job ((s.set n ((s.controller n).takeSent i)).set (job.owner m.partId)
      { (s.set n ((s.controller n).takeSent i)).controller (job.owner m.partId) with
        dropped := (s.controller (job.owner m.partId)).dropped ++ [m] }) := by
  have hpc := (set_takeSent_pc s n (job.owner m.partId) i).1
  refine h.move_message hi rfl (hpc ▸ h.runs _) (congrArg PlanController.mapped hpc)
    fun p w u => ?_
  show tokensIn ((s.set n ((s.controller n).takeSent i)).controller
    (job.owner m.partId)).pc.received p w u + tokensIn (_ ++ [m]) p w u = _
  rw [hpc, tokensIn_snoc]
  omega

theorem flow_move [LinearOrder K] (h : Flow job s) (hm : Move job s e s') : Flow job s' := by
  cases hm with
  | stay => exact h
  | act n hn e a ha x hx hstream hstep =>
    exact h.act ha.ne_receive ha.ne_endMap hx.store hx.executor hx.sent hx.dropped hstep
  | ignore n hn b hb hig => exact h.set (h.runs n) (h.out n) (fun _ _ _ _ => rfl) rfl rfl
  | start n hn hb pc hstep =>
    exact h.act (a := .kStart) (by simp) (by simp) rfl rfl rfl rfl hstep
  | announce n hn v hb pc hstep =>
    exact h.act (a := .kUpdateVersion v) (by simp) (by simp) rfl rfl rfl rfl hstep
  | terminate n hn hb => exact h.set (h.runs n) (h.out n) (fun _ _ _ _ => rfl) rfl rfl
  | tell n hn r hr sched hstep =>
    have hset := h.set (n := n)
      (x := { s.controller n with told := (s.controller n).told + 1 })
      (h.runs n) (h.out n) (fun _ _ _ _ => rfl) rfl rfl
    exact ⟨hset.runs, hset.out, hset.tokens⟩
  | deliver n hn i m hi hend pc hstep => exact h.deliver hi hstep
  | drop n hn i m hi hend => exact h.drop hi
  | combine n hn i d hd => exact h.combiner ((h.out n).runTask hd) (carried_runTask hd)
  | periodicCombine n hn => exact h.combiner (h.out n).periodicCombine (carried_periodicCombine _)
  | endMap n hn i t hi hs d hd hstop => exact h.endMap hi hs hstop hd
  | endNoMap n hn i hnone =>
    have hstep : PlanController.step (job.spec n) (s.controller n).pc (.endMap i) =
        .ok (PlanController.endMap (s.controller n).pc i) := rfl
    refine h.set (.tail (h.runs n) (arrivesOnce_of_ne (by simp)) hstep) (h.out n) (fun p _ u w => ?_)
      (received_eq (h.sound n).layout hstep (by simp)) rfl
    show _ = _ + (PlanController.endMap (s.controller n).pc i).mapped.count (u, w)
    rw [endNoMap_mapped hnone]

end Moves

/-- **Tokens.**  In every state of every run of the cluster each map output is in one place. -/
theorem flow_reachable [LinearOrder K] (hs : Reachable job s) : Flow job s :=
  hs.induct flow_init fun _ _ _ h hm => flow_move h hm

end ControlPlane

end Tangram
