import Tangram.Cluster.Isolation
import Tangram.Worker.Overlap
import Tangram.Worker.Rerun

/-!
# A plan that outlives a node

The nodes of a plan when map partitions of a dead node are given to others
(`PlanController::ReassignMap`).  A node that is dead takes no more steps, and
what it has sent arrives or is lost.  The manager is not part of this: a node
may be told anything at any time, and may be given any partition at any version.

A survivor maps again what the dead node has mapped, and its combiner need not
put the outputs into the same batches.  Where a batch for a partition and a
version shares some upstream partitions with a batch of another node, but not
all, `IsJoinedBefore` finds it half-joined (`reassigned_half_joined`).  In every
run without such a batch nothing is half-joined and `Insert` finds its key free
(`never_half_joined`).  Without a reassignment, or without a timer, there is no
such batch.
-/

namespace Tangram

open StepRun PlanController DelayedCombiner List Controller

variable {K M O B : Type} {a : Action (List B)} {e : PlaneCheck} {i : Nat}

/-! ## State -/

/-- The job once map partition `u` is on node `n`.  A plan whose maps and updates share a
collection is aborted when a partition is lost (`LostWriteCollection`). -/
def MapJoin.adopt (job : MapJoin K M O B) (n u : Int) : MapJoin K M O B :=
  if h : n ∈ job.nodes ∧ 0 ≤ u ∧ job.updateCollectionId ≠ job.mapCollectionId then
    { job with
      partToNode := Function.update job.partToNode job.mapCollectionId
        ((job.partToNode job.mapCollectionId).set u.toNat n)
      node_mem := fun cid k hk => by
        by_cases hc : cid = job.mapCollectionId
        · subst hc
          rw [Function.update_self] at hk
          rcases List.mem_or_eq_of_mem_set hk with hk | rfl
          · exact job.node_mem _ k hk
          · exact h.1
        · rw [Function.update_of_ne hc] at hk
          exact job.node_mem cid k hk
      update_ne_nil := by
        rw [Function.update_of_ne h.2.2]
        exact job.update_ne_nil
      mapper_mem := fun k => by
        rw [Function.update_of_ne h.2.2]
        exact job.mapper_mem k }
  else job

/-- A node of the plan. -/
structure Survivor (K M O B : Type) where
  controller : Controller K M B
  /-- The job as the node sees it; it has `num_local_map_part_` map partitions in it. -/
  view : MapJoin K M O B
  /-- The join messages from here that have arrived (a record of the run). -/
  gone : List (JoinMeta (List B))

structure Survivors (K M O B : Type) where
  node : Int → Survivor K M O B
  /-- A node has been told of a reassignment (a record of the run). -/
  reassigned : Bool

/-- The `CHECK`s of `ReassignMap` are the first three. -/
inductive SurvivorCheck
  | reassignHas | reassignFound | reassignNumLocal
  | plane (e : PlaneCheck)
deriving DecidableEq, Repr

/-- A line of `kReassignMap`. -/
structure Reassignment where
  toId : Int
  partId : Int
  version : Int
deriving DecidableEq, Repr

/-- What can happen at a node. -/
inductive SurvivorEvent (B : Type)
  /-- The manager or a fetcher tells the controller something, or a task moves on. -/
  | act (a : Action (List B))
  | combine (i : Nat)
  | periodicCombine
  | kTerminatePlan
  /-- `parts` are the map partitions that `partition_manager` has by then. -/
  | kReassignMap (reassignments : List Reassignment) (parts : List Int)
  /-- The `i`-th join message sent from here arrives. -/
  | deliver (i : Nat)
  /-- It is lost. -/
  | lose (i : Nat)

/-- An action of the plan controller, with what it does to the combiner. -/
def Controller.perform (job : MapJoin K M O B) (n : Int) (x : Controller K M B) :
    Action (List B) → Except PlaneCheck (Controller K M B)
  | .beginMap i => x.act job n (.beginMap i)
  | .endMap i => x.endMap job n i
  | .execFetch i => x.execFetch job n i
  | .kReceiveJoin _ => .ok x -- join messages are delivered
  | a => x.process job n a

namespace Survivor

/-- All the join messages from the node that have not been lost. -/
def history (x : Survivor K M O B) : List (JoinMeta (List B)) := x.gone ++ x.controller.combiner.sent

/-- The loop body of `ReassignMap`. -/
def takeOver (n : Int) (parts : List Int) (x : Survivor K M O B) (r : Reassignment) :
    Except SurvivorCheck (Survivor K M O B) :=
  if r.toId = n then do
    check .reassignHas (r.partId ∈ parts)
    check .reassignFound (r.partId ∉ x.controller.pc.mapVersions.keys)
    return { x with
      controller := { x.controller with pc := x.controller.pc.adopt r.partId r.version }
      view := x.view.adopt n r.partId }
  else return x

def numLocalMapPart (n : Int) (x : Survivor K M O B) : Nat :=
  (owned (x.view.partToNode x.view.mapCollectionId) n).length

def reassignMap (n : Int) (x : Survivor K M O B) (reassignments : List Reassignment)
    (parts : List Int) : Except SurvivorCheck (Survivor K M O B) :=
  if x.controller.terminated then .ok x
  else do
    let x ← reassignments.foldlM (takeOver n parts) x
    check .reassignNumLocal (x.numLocalMapPart n = parts.length)
    let pc ← (tryRunSomeMaps (x.view.spec n) x.controller.pc).mapError (.plane ∘ .controller)
    return { x with controller := { x.controller with pc := pc } }

/-- The `i`-th message from here arrives. -/
def leave (x : Survivor K M O B) (i : Nat) (m : JoinMeta (List B)) : Survivor K M O B :=
  { x with controller := x.controller.takeSent i, gone := x.gone ++ [m] }

def receive (n : Int) (x : Survivor K M O B) (m : JoinMeta (List B)) :
    Except SurvivorCheck (Survivor K M O B) := do
  let y ← (x.controller.receive x.view n m).mapError .plane
  return { x with controller := y }

/-- A message to another node is lost; one that stays on the node is not. -/
def lose (x : Survivor K M O B) (i : Nat) : Survivor K M O B :=
  match x.controller.combiner.sent[i]? with
  | some m => if m.localMode then x else { x with controller := x.controller.takeSent i }
  | none => x

end Survivor

namespace Survivors

variable (job : MapJoin K M O B)

def init : Survivors K M O B := ⟨fun n => ⟨Controller.init job n, job, []⟩, false⟩

def set (s : Survivors K M O B) (n : Int) (x : Survivor K M O B) : Survivors K M O B :=
  { s with node := Function.update s.node n x }

def deliver (s : Survivors K M O B) (n : Int) (i : Nat) :
    Except SurvivorCheck (Survivors K M O B) :=
  match (s.node n).controller.combiner.sent[i]? with
  | none => .ok s
  | some m => do
    let s := s.set n ((s.node n).leave i m)
    let d := job.owner m.partId
    let y ← (s.node d).receive d m
    return s.set d y

/-- What changes nothing but the controller. -/
def atNode [LinearOrder K] (n : Int) (x : Survivor K M O B) :
    SurvivorEvent B → Except PlaneCheck (Controller K M B)
  | .act a => x.controller.perform x.view n a
  | .combine i => x.controller.combine x.view n i
  | .periodicCombine => .ok { x.controller with
      combiner := x.controller.combiner.periodicCombine x.view }
  | .kTerminatePlan => .ok { x.controller with terminated := true }
  | _ => .ok x.controller

def step [LinearOrder K] (s : Survivors K M O B) :
    Int × SurvivorEvent B → Except SurvivorCheck (Survivors K M O B)
  | (n, e) =>
    if n ∈ job.nodes then
      match e with
      | .deliver i => s.deliver job n i
      | .lose i => .ok (s.set n ((s.node n).lose i))
      | .kReassignMap reassignments parts => do
        let y ← (s.node n).reassignMap n reassignments parts
        return { s.set n y with reassigned := true }
      | e => do
        let y ← (atNode n (s.node n) e).mapError .plane
        return s.set n { s.node n with controller := y }
    else .ok s

/-! ## The condition -/

/-- Two batches list the same partitions, or have none in common. -/
def Alike (is js : List Int) : Prop :=
  is.toFinset = js.toFinset ∨ Disjoint is.toFinset js.toFinset

instance (is js : List Int) : Decidable (Alike is js) := by unfold Alike; infer_instance

/-- After a reassignment, a batch that a combiner with a timer sends overlaps with no batch of
another node, for the same partition and version, without being the same. -/
def Aligned (s : Survivors K M O B) : Int × SurvivorEvent B → Prop
  | (n, .combine i) =>
    s.reassigned = true → 0 < job.combineTimeout →
      ∀ t ∈ (s.node n).controller.combiner.executor[i]?, ∀ k ∈ job.nodes, k ≠ n →
        ∀ m ∈ (s.node k).history, (m.partId, m.version) = t.1 → Alike (t.2.map Prod.fst) m.ids
  | _ => True

instance (s : Survivors K M O B) (a : Int × SurvivorEvent B) : Decidable (Aligned job s a) := by
  unfold Aligned; split <;> infer_instance

end Survivors

/-! ## What an action does -/

section Perform

variable {job : MapJoin K M O B} {n : Int} {x y : Controller K M B}

/-- What an action does to the outbox of a controller. -/
inductive Posting (job : MapJoin K M O B) (n : Int) (x y : Controller K M B) : Prop
  | same (hmapped : y.pc.mapped = x.pc.mapped) (hstore : y.combiner.store = x.combiner.store)
      (hexec : y.combiner.executor = x.combiner.executor)
      (hsent : y.combiner.sent = x.combiner.sent)
      (hstream : ∀ k, y.combiner.streamStore k ≠ none → x.combiner.streamStore k ≠ none)
  | output (t : MapTask) (ht : t ∈ x.pc.mapExecutor)
      (hmapped : y.pc.mapped = x.pc.mapped ++ [(t.partId, t.version)])
      (hd : x.combiner.addMapOutput job n t.partId t.version = .ok y.combiner)

/-- The controller takes a step of its own, or none; what it does is not the receipt of a join
message. -/
def Works (job : MapJoin K M O B) (n : Int) (x y : Controller K M B) : Prop :=
  y.pc = x.pc ∨ ∃ a, (∀ m, a ≠ Action.kReceiveJoin m) ∧
    PlanController.step (job.spec n) x.pc a = .ok y.pc

theorem act_change (ha : ∀ i, a ≠ .endMap i) (hj : ∀ m, a ≠ .kReceiveJoin m)
    (h : x.act job n a = .ok y) : Works job n x y ∧ Posting job n x y := by
  obtain ⟨pc, hpc, rfl⟩ := ControlPlane.act_eq_ok h
  exact ⟨.inr ⟨a, hj, hpc⟩, .same (mapped_step hpc ha) rfl rfl rfl fun _ hk => hk⟩

theorem process_change (ha : ∀ i, a ≠ .endMap i) (hj : ∀ m, a ≠ .kReceiveJoin m)
    (h : x.process job n a = .ok y) : Works job n x y ∧ Posting job n x y := by
  unfold Controller.process at h
  split at h
  · cases h
    exact ⟨.inl rfl, .same rfl rfl rfl rfl fun _ hk => hk⟩
  · exact act_change ha hj h

theorem endMap_mapped_none (h : x.endedMap i = none) :
    (PlanController.endMap x.pc i).mapped = x.pc.mapped := by
  unfold PlanController.endMap
  split
  · rfl
  · next t hi =>
    have hnone := Option.filter_eq_none_iff.mp h t hi
    split_ifs with hs hstop
    · rfl
    · rfl
    · rw [Option.not_isSome_iff_eq_none] at hstop
      simp [hstop] at hnone
      exact absurd hnone hs

theorem endMap_change (h : x.endMap job n i = .ok y) : Works job n x y ∧ Posting job n x y := by
  obtain ⟨d, hd, h⟩ := bind_eq_ok.mp h
  obtain ⟨pc, hpc, rfl⟩ := ControlPlane.act_eq_ok h
  refine ⟨.inr ⟨.endMap i, by simp, hpc⟩, ?_⟩
  obtain rfl : pc = PlanController.endMap x.pc i := (Except.ok.inj hpc).symm
  unfold addOutput at hd
  split at hd
  · next hnone =>
    cases hd
    exact .same (endMap_mapped_none hnone) rfl rfl rfl fun _ hk => hk
  · next t ht =>
    obtain ⟨hi, hf⟩ := Option.filter_eq_some_iff.mp ht
    simp only [Bool.and_eq_true, Option.isNone_iff_eq_none] at hf
    exact .output t (mem_of_getElem? hi) (endMap_mapped hi hf.1 hf.2) (mapError_eq_ok.mp hd)

theorem takeStream_change {m : JoinMeta (List B)} (h : x.takeStream m = .ok y) :
    ∀ k, y.combiner.streamStore k ≠ none → x.combiner.streamStore k ≠ none := by
  intro k hk
  unfold takeStream at h
  split at h
  · obtain ⟨_, _, h⟩ := bind_eq_ok.mp h
    cases h
    by_cases hkey : k = streamKey m
    · simp [hkey] at hk
    · simpa only [Function.update_of_ne hkey] using hk
  · cases h
    exact hk

theorem takeTaskStream_change (h : x.takeTaskStream i = .ok y) :
    y.pc = x.pc ∧ Posting job n x y := by
  unfold takeTaskStream at h
  split at h
  · obtain ⟨hpc, hout⟩ := ControlPlane.takeStream_eq_ok h
    exact ⟨hpc, .same (congrArg _ hpc) hout.store hout.executor hout.sent (takeStream_change h)⟩
  · cases h
    exact ⟨rfl, .same rfl rfl rfl rfl fun _ hk => hk⟩

theorem execFetch_change (h : x.execFetch job n i = .ok y) :
    Works job n x y ∧ Posting job n x y := by
  obtain ⟨x₁, h₁, h⟩ := bind_eq_ok.mp h
  obtain ⟨hpc, hpost⟩ : x₁.pc = x.pc ∧ Posting job n x x₁ := takeTaskStream_change h₁
  obtain ⟨pc, hstep, rfl⟩ := ControlPlane.act_eq_ok h
  rw [hpc] at hstep
  refine ⟨.inr ⟨_, by simp, hstep⟩, ?_⟩
  cases hpost with
  | same hmapped hstore hexec hsent hstream =>
    exact .same (mapped_step hstep (by simp)) hstore hexec hsent hstream
  | output t ht hmapped hd => simp [hpc] at hmapped

theorem perform_change (h : x.perform job n a = .ok y) : Works job n x y ∧ Posting job n x y := by
  cases a with
  | beginMap i => exact act_change (by simp) (by simp) h
  | endMap i => exact endMap_change h
  | execFetch i => exact execFetch_change h
  | kReceiveJoin m =>
    cases h
    exact ⟨.inl rfl, .same rfl rfl rfl rfl fun _ hk => hk⟩
  | _ => exact process_change (by simp) (by simp) h

/-! What fails. -/

theorem act_error (h : x.act job n a = .error e) :
    ∃ c, e = .controller c ∧ PlanController.step (job.spec n) x.pc a = .error c := by
  rcases bind_eq_error.mp h with h | ⟨_, -, h⟩
  · obtain ⟨c, hc, rfl⟩ := mapError_eq_error.mp h
    exact ⟨c, rfl, hc⟩
  · cases h

theorem process_error (h : x.process job n a = .error e) :
    ∃ c, e = .controller c ∧ PlanController.step (job.spec n) x.pc a = .error c := by
  unfold Controller.process at h
  split at h
  · cases h
  · exact act_error h

/-- An action fails in its handler, or at the stream store. -/
theorem perform_error (h : x.perform job n a = .error e) :
    (∃ c a, e = .controller c ∧ (∀ m, a ≠ Action.kReceiveJoin m) ∧
      PlanController.step (job.spec n) x.pc a = .error c) ∨ e = .combiner .get ∨
    ∃ c, e = .combiner c ∧
      ∃ t ∈ x.pc.mapExecutor, x.combiner.addMapOutput job n t.partId t.version = .error c := by
  cases a with
  | beginMap i =>
    obtain ⟨c, he, hc⟩ := act_error h
    exact .inl ⟨c, _, he, by simp, hc⟩
  | endMap i =>
    rcases bind_eq_error.mp h with h | ⟨d, -, h⟩
    · unfold addOutput at h
      split at h
      · cases h
      · next t ht =>
        obtain ⟨c, hc, rfl⟩ := mapError_eq_error.mp h
        obtain ⟨hi, -⟩ := Option.filter_eq_some_iff.mp ht
        exact .inr (.inr ⟨c, rfl, t, mem_of_getElem? hi, hc⟩)
    · obtain ⟨c, he, hc⟩ := act_error h
      exact .inl ⟨c, _, he, by simp, hc⟩
  | execFetch i =>
    rcases bind_eq_error.mp h with h | ⟨x₁, h₁, h⟩
    · right; left
      unfold takeTaskStream at h
      split at h
      · unfold takeStream at h
        split at h
        · rcases bind_eq_error.mp h with h | ⟨_, -, h⟩
          · obtain ⟨c, hc, rfl⟩ := mapError_eq_error.mp h
            rw [(check_eq_error.mp hc).2]
          · cases h
        · cases h
      · cases h
    · obtain ⟨c, he, hc⟩ := act_error h
      obtain ⟨hpc, -⟩ : x₁.pc = x.pc ∧ Posting job n x x₁ := takeTaskStream_change h₁
      rw [hpc] at hc
      exact .inl ⟨c, _, he, by simp, hc⟩
  | kReceiveJoin m => cases h
  | _ =>
    obtain ⟨c, he, hc⟩ := process_error h
    exact .inl ⟨c, _, he, by simp, hc⟩

end Perform

namespace Survivors

variable {job : MapJoin K M O B} {s s' : Survivors K M O B} {n : Int} {parts : List Int}

/-! ## The invariant -/

/-- What one node keeps. -/
structure Own (job : MapJoin K M O B) (reassigned : Bool) (n : Int) (x : Survivor K M O B) :
    Prop where
  timeout : x.view.combineTimeout = job.combineTimeout
  mapping : Mapping (x.view.spec n) x.controller.pc
  home : reassigned = false →
    ∀ u ∈ x.controller.pc.mapVersions.keys, u ∈ owned (job.partToNode job.mapCollectionId) n
  outbox : Outbox x.view x.gone x.controller.pc.mapped x.controller.combiner

theorem own_init (n : Int) : Own job false n ((init job).node n) where
  timeout := rfl
  mapping := mapping_setup
  home _ _ hu := hu
  outbox := outbox_init

section Own

variable {r : Bool} {x : Survivor K M O B} {y : Controller K M B} {m m' : JoinMeta (List B)} {u : Int}

theorem Own.perform (h : Own job r n x) (hy : x.controller.perform x.view n a = .ok y) :
    Own job r n { x with controller := y } := by
  obtain ⟨hwork, hpost⟩ := perform_change hy
  refine ⟨h.timeout, ?_, ?_, ?_⟩
  · rcases hwork with hpc | ⟨b, -, hstep⟩
    · exact hpc ▸ h.mapping
    · exact mapping_step h.mapping hstep
  · rcases hwork with hpc | ⟨b, -, hstep⟩
    · exact hpc ▸ h.home
    · show r = false → ∀ u ∈ y.pc.mapVersions.keys, _
      rw [mapKeys_step hstep]
      exact h.home
  · show Outbox x.view x.gone y.pc.mapped y.combiner
    cases hpost with
    | same hmapped hstore hexec hsent hstream =>
      rw [hmapped]
      exact h.outbox.congr hstore hexec hsent hstream
    | output t ht hmapped hd =>
      rw [hmapped]
      exact h.outbox.addMapOutput hd

/-- Without a timer, or with messages as they were, nothing new is to be looked at. -/
theorem perform_history (hy : x.controller.perform x.view n a = .ok y)
    (hm : m ∈ x.gone ++ y.combiner.sent) : m ∈ x.history ∨ x.view.combineTimeout ≤ 0 := by
  cases (perform_change hy).2 with
  | same hmapped hstore hexec hsent hstream =>
    rw [hsent] at hm
    exact .inl hm
  | output t ht hmapped hd =>
    by_cases hmode : x.view.combineTimeout ≤ 0
    · exact .inr hmode
    · rw [addMapOutput_sent hd (by omega)] at hm
      exact .inl hm

/-- What a message lists was mapped here. -/
theorem Own.mem_keys (h : Own job r n x) (hm : m ∈ x.history) (hu : u ∈ m.ids) :
    u ∈ x.controller.pc.mapVersions.keys := by
  have hpos : 0 < tokensIn x.history m.partId m.version u :=
    tokensIn_pos.mpr ⟨m, hm, ⟨rfl, rfl⟩, hu⟩
  have hle := h.outbox.sent_le m.partId m.version u
  have hmem : (u, m.version) ∈ x.controller.pc.mapped :=
    count_pos_iff.mp (lt_of_lt_of_le hpos hle)
  exact (h.mapping.once.mapped _ hmem).1

/-- Two messages of one node have no partition in common for the same version. -/
theorem Own.alike (h : Own job r n x) (hm : m ∈ x.history) (hm' : m' ∈ x.history)
    (hp : m'.partId = m.partId) (hv : m'.version = m.version) : Alike m.ids m'.ids := by
  by_cases hd : Disjoint m.ids.toFinset m'.ids.toFinset
  · exact .inr hd
  · left
    obtain ⟨u, hu, hu'⟩ := Finset.not_disjoint_iff.mp hd
    have hle := h.outbox.sent_le m.partId m.version u
    have hone := nodup_iff_count_le_one.mp h.mapping.once.once (u, m.version)
    rw [tokensIn_unique (hle.trans hone) hm hm' ⟨⟨rfl, rfl⟩, mem_toFinset.mp hu⟩
      ⟨⟨hp, hv⟩, mem_toFinset.mp hu'⟩]

theorem alike_of_single {is js : List Int} (hi : is.length = 1) (hj : js.length = 1) :
    Alike is js := by
  obtain ⟨a, rfl⟩ := length_eq_one_iff.mp hi
  obtain ⟨b, rfl⟩ := length_eq_one_iff.mp hj
  by_cases hab : a = b
  · exact .inl (by rw [hab])
  · exact .inr (by simpa using hab)

theorem Alike.symm {is js : List Int} (h : Alike is js) : Alike js is :=
  h.imp Eq.symm fun hd => hd.symm

/-- The messages of two nodes, before any reassignment or without a timer. -/
theorem Own.alike_other (h : Own job r n x) {k : Int} {z : Survivor K M O B} (h' : Own job r k z)
    (hk : k ≠ n) (hcase : job.combineTimeout ≤ 0 ∨ r = false) (hm : m ∈ x.history)
    (hm' : m' ∈ z.history) : Alike m.ids m'.ids := by
  rcases hcase with hmode | hr
  · exact alike_of_single ((h.outbox.posts.single (h.timeout ▸ hmode)).2.2 m hm)
      ((h'.outbox.posts.single (h'.timeout ▸ hmode)).2.2 m' hm')
  · right
    rw [Finset.disjoint_left]
    intro u hu hu'
    have hn := h.home hr u (h.mem_keys hm (mem_toFinset.mp hu))
    have hk' := h'.home hr u (h'.mem_keys hm' (mem_toFinset.mp hu'))
    exact hk ((mem_owned.mp hk').2.symm.trans (mem_owned.mp hn).2)

end Own

/-- The batches of some messages, by partition and version. -/
def batches (ms : Int → List (JoinMeta (List B))) (key : Int × Int) : Set (Finset Int) :=
  { b | ∃ n, ∃ m ∈ ms n, (m.partId, m.version) = key ∧ m.ids.toFinset = b }

def gone (s : Survivors K M O B) (n : Int) : List (JoinMeta (List B)) := (s.node n).gone

def history (s : Survivors K M O B) (n : Int) : List (JoinMeta (List B)) := (s.node n).history

theorem batches_mono {ms ms' : Int → List (JoinMeta (List B))} (h : ∀ n, ms n ⊆ ms' n)
    (key : Int × Int) : batches ms key ⊆ batches ms' key := by
  rintro b ⟨n, m, hm, hb⟩
  exact ⟨n, m, h n hm, hb⟩

/-- No batch of another node overlaps with the message without being the same. -/
def Clear (s : Survivors K M O B) (n : Int) (m : JoinMeta (List B)) : Prop :=
  ∀ k, k ≠ n → ∀ m' ∈ s.history k, m'.partId = m.partId → m'.version = m.version →
    Alike m.ids m'.ids

structure Inv (job : MapJoin K M O B) (s : Survivors K M O B) : Prop where
  own : ∀ n, Own job s.reassigned n (s.node n)
  idle : ∀ n, n ∉ job.nodes → s.history n = []
  clear : ∀ n, ∀ m ∈ s.history n, Clear s n m
  traced : ∀ n, Traced (batches s.gone) (s.node n).controller.pc

theorem inv_init : Inv job (init job) where
  own := own_init
  idle _ _ := rfl
  clear _ _ hm := by cases hm
  traced _ := traced_setup

theorem Inv.pairwise (h : Inv job s) (key : Int × Int) :
    (batches s.history key).PairwiseDisjoint id := by
  rintro b ⟨n, m, hm, rfl, rfl⟩ b' ⟨k, m', hm', hkey, rfl⟩ hne
  obtain ⟨hp, hv⟩ := Prod.mk.inj hkey
  have halike : Alike m.ids m'.ids := by
    by_cases hk : k = n
    · subst hk
      exact (h.own k).alike hm hm' hp hv
    · exact h.clear n m hm k hk m' hm' hp hv
  exact halike.resolve_left hne

theorem Inv.traced_history (h : Inv job s) (n : Int) :
    Traced (batches s.history) (s.node n).controller.pc :=
  (h.traced n).mono (batches_mono fun _ => subset_append_left _ _)

/-! ## One step -/

section Set

variable {x : Survivor K M O B} {k : Int}

theorem set_node : (s.set n x).node k = if k = n then x else s.node k := by
  by_cases h : k = n
  · subst h
    simp [set]
  · simp [set, h]

theorem forall_set {P : Int → Survivor K M O B → Prop} (h : ∀ k, P k (s.node k)) (hx : P n x)
    (k : Int) : P k ((s.set n x).node k) := by
  rw [set_node]
  split
  · next hk => exact hk ▸ hx
  · exact h k

theorem gone_subset_set (hx : s.gone n ⊆ x.gone) (k : Int) : s.gone k ⊆ (s.set n x).gone k := by
  show (s.node k).gone ⊆ ((s.set n x).node k).gone
  rw [set_node]
  split
  · next hk => exact hk ▸ hx
  · exact List.Subset.refl _

/-- Node `n` changes; what it has sent since is clear. -/
theorem Inv.change (h : Inv job s) (hn : n ∈ job.nodes ∨ x.history ⊆ s.history n)
    (hx : Own job s.reassigned n x) (hgone : s.gone n ⊆ x.gone)
    (hnew : ∀ m ∈ x.history, m ∈ s.history n ∨ job.combineTimeout ≤ 0 ∨ s.reassigned = false ∨
      Clear s n m)
    (htr : Traced (batches (s.set n x).gone) x.controller.pc) : Inv job (s.set n x) := by
  have hclear : ∀ m ∈ x.history, Clear s n m := by
    intro m hm
    rcases hnew m hm with hold | hmode | hr | hclear
    · exact h.clear n m hold
    · exact fun k hk m' hm' _ _ => hx.alike_other (h.own k) hk (.inl hmode) hm hm'
    · exact fun k hk m' hm' _ _ => hx.alike_other (h.own k) hk (.inr hr) hm hm'
    · exact hclear
  refine ⟨forall_set h.own hx, fun k hk => ?_, fun k m hm l hl m' hm' hp hv => ?_, ?_⟩
  · show ((s.set n x).node k).history = []
    rw [set_node]
    split
    · next he =>
      subst he
      rcases hn with hn | hsub
      · exact absurd hn hk
      · exact subset_nil.mp (h.idle k hk ▸ hsub)
    · exact h.idle k hk
  · change m ∈ ((s.set n x).node k).history at hm
    change m' ∈ ((s.set n x).node l).history at hm'
    rw [set_node] at hm hm'
    by_cases hkn : k = n
    · subst hkn
      rw [if_pos rfl] at hm
      rw [if_neg hl] at hm'
      exact hclear m hm l hl m' hm' hp hv
    · rw [if_neg hkn] at hm
      by_cases hln : l = n
      · subst hln
        rw [if_pos rfl] at hm'
        exact (hclear m' hm' k hkn m hm hp.symm hv.symm).symm
      · rw [if_neg hln] at hm'
        exact h.clear k m hm l hl m' hm' hp hv
  · exact forall_set (P := fun _ z => Traced (batches (s.set n x).gone) z.controller.pc)
      (fun k => (h.traced k).mono (batches_mono (gone_subset_set hgone))) htr

/-- Node `n` changes and nothing arrives anywhere. -/
theorem Inv.keep (h : Inv job s) (hn : n ∈ job.nodes) (hx : Own job s.reassigned n x)
    (hgone : x.gone = s.gone n)
    (hnew : ∀ m ∈ x.history, m ∈ s.history n ∨ job.combineTimeout ≤ 0 ∨ s.reassigned = false ∨
      Clear s n m)
    (htr : Traced (batches s.gone) x.controller.pc) : Inv job (s.set n x) := by
  have hsub : s.gone n ⊆ x.gone := by
    rw [hgone]
    exact List.Subset.refl _
  exact h.change (.inl hn) hx hsub hnew (htr.mono (batches_mono (gone_subset_set hsub)))

end Set

section Step

variable {i : Nat} {m : JoinMeta (List B)} {d : DelayedCombiner K M B}

theorem Inv.act (h : Inv job s) (hn : n ∈ job.nodes) {y : Controller K M B}
    (hy : (s.node n).controller.perform (s.node n).view n a = .ok y) :
    Inv job (s.set n { s.node n with controller := y }) := by
  refine h.keep hn ((h.own n).perform hy) rfl (fun m hm => ?_) ?_
  · rcases perform_history hy hm with hold | hmode
    · exact .inl hold
    · exact .inr (.inl ((h.own n).timeout ▸ hmode))
  · rcases (perform_change hy).1 with hpc | ⟨b, hb, hstep⟩
    · have hold := h.traced n
      rw [← hpc] at hold
      exact hold
    · exact traced_step (h.traced n) (fun m hm => absurd hm (hb m)) hstep

/-- The combiner changes, and not by a map output. -/
theorem Own.combiner {r : Bool} {x : Survivor K M O B} (h : Own job r n x)
    (hd : Outbox x.view x.gone x.controller.pc.mapped d) :
    Own job r n { x with controller := { x.controller with combiner := d } } :=
  { h with outbox := hd }

theorem Inv.combine [LinearOrder K] (h : Inv job s) (hn : n ∈ job.nodes)
    (ha : Aligned job s (n, .combine i))
    (hd : (s.node n).controller.combiner.runTask (s.node n).view n i = .ok d) :
    Inv job (s.set n { s.node n with
      controller := { (s.node n).controller with combiner := d } }) := by
  refine h.keep hn ((h.own n).combiner ((h.own n).outbox.runTask hd)) rfl (fun m hm => ?_)
    (h.traced n)
  rcases runTask_sent hd with hsent | ⟨task, bin, b, hi, hsent⟩
  · have hm : m ∈ (s.node n).gone ++ d.sent := hm
    rw [hsent] at hm
    exact .inl hm
  · have hm : m ∈ (s.node n).gone ++ d.sent := hm
    rw [hsent, ← append_assoc] at hm
    rcases mem_append.mp hm with hm | hm
    · exact .inl hm
    · right
      by_cases hmode : job.combineTimeout ≤ 0
      · exact .inl hmode
      · right
        by_cases hr : s.reassigned = false
        · exact .inl hr
        · right
          rw [mem_singleton.mp hm]
          intro k hk m' hm' hp hv
          by_cases hmem : k ∈ job.nodes
          · exact ha (by simpa using hr) (by omega) task hi k hmem hk m' hm' (Prod.ext hp hv)
          · rw [h.idle k hmem] at hm'
            cases hm'

theorem Inv.lose (h : Inv job s) (hn : n ∈ job.nodes) (i : Nat) :
    Inv job (s.set n ((s.node n).lose i)) := by
  unfold Survivor.lose
  split
  · next m hi =>
    split
    · exact h.keep hn (h.own n) rfl (fun m hm => .inl hm) (h.traced n)
    · next hl =>
      have hx := (h.own n).outbox.lose hi (by simpa using hl)
      refine h.keep hn ((h.own n).combiner hx) rfl (fun m' hm' => .inl ?_) (h.traced n)
      rcases mem_append.mp hm' with hm' | hm'
      · exact mem_append_left _ hm'
      · exact mem_append_right _ (mem_of_mem_eraseIdx hm')
  · exact h.keep hn (h.own n) rfl (fun m hm => .inl hm) (h.traced n)

theorem Inv.leave (h : Inv job s) (hn : n ∈ job.nodes)
    (hi : (s.node n).controller.combiner.sent[i]? = some m) :
    Inv job (s.set n ((s.node n).leave i m)) := by
  have hsub : s.gone n ⊆ ((s.node n).leave i m).gone := subset_append_left _ _
  have hx := (h.own n).outbox.leave hi
  refine h.change (.inl hn) { h.own n with outbox := hx } hsub (fun m' hm' => .inl ?_)
    ((h.traced n).mono (batches_mono (gone_subset_set hsub)))
  have hm := mem_of_getElem? hi
  rcases mem_append.mp hm' with hm' | hm'
  · rcases mem_append.mp hm' with hm' | hm'
    · exact mem_append_left _ hm'
    · rw [mem_singleton.mp hm']
      exact mem_append_right _ hm
  · exact mem_append_right _ (mem_of_mem_eraseIdx hm')

theorem Inv.receive (h : Inv job s) {y : Survivor K M O B} (hm : m.Listed (batches s.gone))
    (hy : (s.node n).receive n m = .ok y) : Inv job (s.set n y) := by
  obtain ⟨z, hz, hy⟩ := bind_eq_ok.mp hy
  cases hy
  have hz := mapError_eq_ok.mp hz
  unfold Controller.receive at hz
  split at hz
  · cases hz
    exact h.change (.inr (List.Subset.refl _)) { h.own n with } (List.Subset.refl _)
      (fun m hm => .inl hm)
      ((h.traced n).mono (batches_mono (gone_subset_set (List.Subset.refl _))))
  · obtain ⟨pc, hstep, rfl⟩ := ControlPlane.act_eq_ok hz
    have hown := h.own n
    have hmapped := mapped_step hstep (by simp)
    have hx : Own job s.reassigned n
        { s.node n with controller := { (s.node n).controller with pc := pc } } := by
      refine ⟨hown.timeout, mapping_step hown.mapping hstep, ?_, ?_⟩
      · show s.reassigned = false → ∀ u ∈ pc.mapVersions.keys, _
        rw [mapKeys_step hstep]
        exact hown.home
      · show Outbox _ _ pc.mapped _
        rw [hmapped]
        exact hown.outbox
    have htr : Traced (batches s.gone) pc := by
      refine traced_step (h.traced n) (fun m' hm' => ?_) hstep
      cases hm'
      exact hm
    exact h.change (.inr (List.Subset.refl _)) hx (List.Subset.refl _)
      (fun m hm => .inl hm) (htr.mono (batches_mono (gone_subset_set (List.Subset.refl _))))

theorem adopt_spec (job : MapJoin K M O B) (n u : Int) :
    (job.adopt n u).combineTimeout = job.combineTimeout ∧
    (job.adopt n u).mapCollectionId = job.mapCollectionId ∧
    (job.adopt n u).updateCollectionId = job.updateCollectionId ∧
    (job.adopt n u).fetchCollectionId = job.fetchCollectionId := by
  unfold MapJoin.adopt
  split <;> exact ⟨rfl, rfl, rfl, rfl⟩

/-- The node has one map partition more. -/
theorem mem_adopt {u p : Int}
    (hp : p ∈ ((job.adopt n u).spec n).partitions (job.adopt n u).mapCollectionId) :
    p = u ∨ p ∈ (job.spec n).partitions job.mapCollectionId := by
  unfold MapJoin.adopt at hp
  split at hp
  · next hc =>
    have hp : p ∈ owned (Function.update job.partToNode job.mapCollectionId
      ((job.partToNode job.mapCollectionId).set u.toNat n) job.mapCollectionId) n := hp
    rw [Function.update_self, mem_owned, mem_partsOf, length_set] at hp
    obtain ⟨⟨h0, hlt⟩, hnode⟩ := hp
    by_cases hpu : p = u
    · exact .inl hpu
    · right
      have hne : u.toNat ≠ p.toNat := by omega
      rw [nodeOf, List.getD, getElem?_set_ne hne] at hnode
      exact mem_owned.mpr ⟨mem_partsOf.mpr ⟨h0, hlt⟩, hnode⟩
  · exact .inr hp

/-- A survivor while it takes partitions over. -/
structure Taking (job : MapJoin K M O B) (F : Int × Int → Set (Finset Int)) (n : Int)
    (x z : Survivor K M O B) : Prop where
  own : Own job true n z
  gone : z.gone = x.gone
  history : z.history = x.history
  traced : Traced F z.controller.pc

theorem Taking.takeOver {F : Int × Int → Set (Finset Int)} {x z z' : Survivor K M O B}
    (h : Taking job F n x z) {r : Reassignment} (hz : z.takeOver n parts r = .ok z') :
    Taking job F n x z' := by
  unfold Survivor.takeOver at hz
  split at hz
  · obtain ⟨_, _, hz⟩ := bind_eq_ok.mp hz
    obtain ⟨_, hnew, hz⟩ := bind_eq_ok.mp hz
    cases hz
    obtain ⟨htime, hmap, hup, hfetch⟩ := adopt_spec z.view n r.partId
    refine ⟨⟨htime.trans h.own.timeout, ?_, by simp, ?_⟩, h.gone, h.history, { h.traced with }⟩
    · exact h.own.mapping.adopt (check_eq_ok.mp hnew) hmap hup hfetch fun p hp => mem_adopt hp
    · exact h.own.outbox.of_timeout htime
  · cases hz
    exact h

theorem Inv.reassign (h : Inv job s) (hn : n ∈ job.nodes) {rs : List Reassignment}
    {y : Survivor K M O B} (hy : (s.node n).reassignMap n rs parts = .ok y) :
    Inv job { s.set n y with reassigned := true } := by
  have h₁ : Inv job { s with reassigned := true } :=
    { h with own := fun k => { h.own k with home := by simp } }
  have hbegin : Taking job (batches s.gone) n (s.node n) (s.node n) :=
    ⟨h₁.own n, rfl, rfl, h.traced n⟩
  have hend : Taking job (batches s.gone) n (s.node n) y := by
    unfold Survivor.reassignMap at hy
    split at hy
    · cases hy
      exact hbegin
    · obtain ⟨z, hz, hy⟩ := bind_eq_ok.mp hy
      obtain ⟨_, _, hy⟩ := bind_eq_ok.mp hy
      obtain ⟨pc, hpc, hy⟩ := bind_eq_ok.mp hy
      cases hy
      have hz := foldlM_induct rs hbegin (fun _ _ _ _ hz₁ hz₂ => hz₁.takeOver hz₂) hz
      have htails := tryRunSomeMaps_tail _ (mapError_eq_ok.mp hpc)
      refine ⟨⟨hz.own.timeout, mapping_tails hz.own.mapping htails, by simp, ?_⟩, hz.gone,
        hz.history, traced_tails hz.traced htails⟩
      show Outbox _ _ pc.mapped _
      rw [mapped_tails htails]
      exact hz.own.outbox
  refine h₁.keep (x := y) hn hend.own hend.gone (fun m hm => .inl ?_) hend.traced
  rw [hend.history] at hm
  exact hm

theorem Inv.atNode [LinearOrder K] (h : Inv job s) (hn : n ∈ job.nodes) {e : SurvivorEvent B}
    (ha : Aligned job s (n, e)) {y : Controller K M B} (hy : atNode n (s.node n) e = .ok y) :
    Inv job (s.set n { s.node n with controller := y }) := by
  cases e with
  | act a => exact h.act hn hy
  | combine i =>
    obtain ⟨d, hd, hy⟩ := bind_eq_ok.mp hy
    cases hy
    exact h.combine hn ha (mapError_eq_ok.mp hd)
  | periodicCombine =>
    cases hy
    refine h.keep hn ((h.own n).combiner (h.own n).outbox.periodicCombine) rfl
      (fun m hm => .inl ?_) (h.traced n)
    have hm : m ∈ (s.node n).gone ++
      ((s.node n).controller.combiner.periodicCombine (s.node n).view).sent := hm
    unfold DelayedCombiner.periodicCombine at hm
    split at hm <;> exact hm
  | _ =>
    cases hy
    exact h.keep hn { h.own n with } rfl (fun m hm => .inl hm) (h.traced n)

theorem inv_step [LinearOrder K] (h : Inv job s) {a : Int × SurvivorEvent B}
    (ha : Aligned job s a) (hstep : step job s a = .ok s') : Inv job s' := by
  obtain ⟨n, e⟩ := a
  simp only [step] at hstep
  split at hstep
  · next hn =>
    split at hstep
    · next i =>
      simp only [deliver] at hstep
      split at hstep
      · cases hstep
        exact h
      · next m hi =>
        obtain ⟨y, hy, hstep⟩ := bind_eq_ok.mp hstep
        cases hstep
        refine (h.leave hn hi).receive ⟨n, m, ?_, rfl, rfl⟩ hy
        show m ∈ ((s.set n _).node n).gone
        rw [set_node, if_pos rfl]
        exact mem_append_right _ mem_cons_self
    · cases hstep
      exact h.lose hn _
    · obtain ⟨y, hy, hstep⟩ := bind_eq_ok.mp hstep
      cases hstep
      exact h.reassign hn hy
    · obtain ⟨y, hy, hstep⟩ := bind_eq_ok.mp hstep
      cases hstep
      exact h.atNode hn ha (mapError_eq_ok.mp hy)
  · cases hstep
    exact h

end Step

/-! ## No check fails -/

section Checks

theorem Inv.perform_ok (h : Inv job s)
    (he : (s.node n).controller.perform (s.node n).view n a = .error e) :
    e ≠ .controller .joinedBeforeMixed ∧ e ≠ .combiner .insert := by
  rcases perform_error he with ⟨c, b, rfl, hb, hstep⟩ | rfl | ⟨c, rfl, t, ht, hout⟩
  · refine ⟨fun hc => ?_, by simp⟩
    cases hc
    exact step_ne_mixed h.pairwise (h.traced_history n) (fun m hm => absurd hm (hb m)) hstep
  · simp
  · refine ⟨by simp, fun hc => ?_⟩
    cases hc
    exact (h.own n).outbox.addMapOutput_ne_insert ((h.own n).mapping.not_mapped ht) hout

variable {e : SurvivorCheck}

theorem Inv.deliver_ok (h : Inv job s) (he : s.deliver job n i = .error e) :
    e ≠ .plane (.controller .joinedBeforeMixed) ∧ e ≠ .plane (.combiner .insert) := by
  unfold Survivors.deliver at he
  split at he
  · cases he
  · next m hi =>
    simp only at he
    rcases bind_eq_error.mp he with he | ⟨_, -, he⟩
    · rcases bind_eq_error.mp he with he | ⟨_, -, he⟩
      · obtain ⟨c, hc, rfl⟩ := mapError_eq_error.mp he
        unfold Controller.receive at hc
        split at hc
        · cases hc
        · obtain ⟨c', rfl, hstep⟩ := act_error hc
          refine ⟨fun hmix => ?_, by simp⟩
          cases hmix
          -- the message is looked at by a controller that is as it was
          have hpc : ((s.set n ((s.node n).leave i m)).node (job.owner m.partId)).controller.pc =
              (s.node (job.owner m.partId)).controller.pc := by
            rw [set_node]
            split
            · next hk => rw [hk]; rfl
            · rfl
          rw [hpc] at hstep
          refine step_ne_mixed h.pairwise (h.traced_history _) (fun m' hm' => ?_) hstep
          cases hm'
          exact ⟨n, m, mem_append_right _ (mem_of_getElem? hi), rfl, rfl⟩
      · cases he
    · cases he

theorem reassignMap_ok {x : Survivor K M O B} {rs : List Reassignment}
    (he : x.reassignMap n rs parts = .error e) :
    e ≠ .plane (.controller .joinedBeforeMixed) ∧ e ≠ .plane (.combiner .insert) := by
  unfold Survivor.reassignMap at he
  split at he
  · cases he
  · rcases bind_eq_error.mp he with he | ⟨z, -, he⟩
    · obtain ⟨z, r, -, he⟩ := foldlM_error rs he
      unfold Survivor.takeOver at he
      split at he
      · rcases bind_eq_error.mp he with he | ⟨_, -, he⟩
        · simp [← (check_eq_error.mp he).2]
        · rcases bind_eq_error.mp he with he | ⟨_, -, he⟩
          · simp [← (check_eq_error.mp he).2]
          · cases he
      · cases he
    · rcases bind_eq_error.mp he with he | ⟨_, -, he⟩
      · simp [← (check_eq_error.mp he).2]
      · rcases bind_eq_error.mp he with he | ⟨_, -, he⟩
        · obtain ⟨c, hc, rfl⟩ := mapError_eq_error.mp he
          refine ⟨fun hmix => ?_, by simp⟩
          cases hmix
          exact tryRunSomeMaps_ne_mixed _ hc
        · cases he

theorem Inv.step_ok [LinearOrder K] (h : Inv job s) {a : Int × SurvivorEvent B}
    (he : step job s a = .error e) :
    e ≠ .plane (.controller .joinedBeforeMixed) ∧ e ≠ .plane (.combiner .insert) := by
  obtain ⟨n, ev⟩ := a
  simp only [step] at he
  split at he
  · split at he
    · exact h.deliver_ok he
    · cases he
    · rcases bind_eq_error.mp he with he | ⟨_, -, he⟩
      · exact reassignMap_ok he
      · cases he
    · rcases bind_eq_error.mp he with he | ⟨_, -, he⟩
      · obtain ⟨c, hc, rfl⟩ := mapError_eq_error.mp he
        suffices hok : c ≠ .controller .joinedBeforeMixed ∧ c ≠ .combiner .insert by
          simpa using hok
        cases ev with
        | act a => exact h.perform_ok hc
        | combine i =>
          rcases bind_eq_error.mp hc with hc | ⟨_, -, hc⟩
          · obtain ⟨c', hc', rfl⟩ := mapError_eq_error.mp hc
            refine ⟨by simp, fun hins => ?_⟩
            cases hins
            exact (h.own n).outbox.runTask_ne_insert (h.own n).mapping.once.once i hc'
          · cases hc
        | _ => cases hc
      · cases he
  · cases he

end Checks

/-- **Nothing is half-joined.**  In every run whose batches are aligned, a batch that has been
sent is in the tracker of a controller as a whole or not at all, and no step stops at the check
of `IsJoinedBefore` on a batch or at that of `Insert`. -/
theorem never_half_joined [LinearOrder K] (job : MapJoin K M O B) (s : Survivors K M O B)
    (hs : Reach (step job) (Aligned job) (init job) s) :
    (∀ n k, ∀ m ∈ (s.node n).history,
      (∀ u ∈ m.ids, u ∈ (s.node k).controller.pc.updateTracker m.partId m.version) ∨
      ∀ u ∈ m.ids, u ∉ (s.node k).controller.pc.updateTracker m.partId m.version) ∧
    ∀ a, step job s a ≠ .error (.plane (.controller .joinedBeforeMixed)) ∧
      step job s a ≠ .error (.plane (.combiner .insert)) := by
  have h : Inv job s := hs.induct (P := Inv job) inv_init fun _ _ _ _ h ha hstep =>
    inv_step h ha hstep
  refine ⟨fun n k m hm => ?_, fun a => ⟨fun he => ?_, fun he => ?_⟩⟩
  · exact (h.traced_history k).all_or_none ⟨n, m, hm, rfl, rfl⟩ (h.pairwise _)
  · exact (h.step_ok he).1 rfl
  · exact (h.step_ok he).2 rfl

/-- Node 1 has map partition 0 and the update partition, node 2 map partition 1. -/
def lostMap (combineTimeout : Int) : MapJoin Int Int (Int × Int) Int :=
  { twoNodes (-1) 1 0 combineTimeout with
    updateCollectionId := 1
    partToNode := fun cid => if cid = 0 then [1, 2] else [1]
    mapper := fun _ => 0
    node_mem := fun cid n h => by split at h <;> simp_all [twoNodes]
    update_ne_nil := by simp
    mapper_mem := fun k => by
      rw [mem_partsOf]
      simp }

/-- The output of node 2 is applied, then node 1 is given its partition. -/
def takenOver : List (Int × SurvivorEvent Int) :=
  [(1, .act .kStart), (2, .act .kStart), (2, .act (.beginMap 0)), (2, .act (.endMap 0)),
    (2, .periodicCombine), (2, .combine 0), (2, .deliver 0), (1, .act (.execFetch 0)),
    (1, .act (.process 0)), (1, .kReassignMap [⟨1, 1, 0⟩] [0, 1]), (1, .act (.beginMap 0)),
    (1, .act (.beginMap 1)), (1, .act (.endMap 0))]

/-- The timer of node 1 keeps its two outputs apart: the one of partition 1 is a duplicate, the
other is not. -/
theorem never_half_joined_timer :
    ∃ s, run (step (lostMap 100)) (init (lostMap 100)) (takenOver ++
        [(1, .periodicCombine), (1, .combine 0), (1, .act (.endMap 0)), (1, .periodicCombine),
          (1, .combine 0)]) = .ok s ∧
      ((s.node 1).history.map (·.ids) = [[0], [1]]) ∧
      (s.node 1).controller.pc.updateTracker 0 0 = {1} ∧
      ∀ a, step (lostMap 100) s a ≠ .error (.plane (.controller .joinedBeforeMixed)) := by
  have hok : RunOk (step (lostMap 100)) (Aligned (lostMap 100)) (init (lostMap 100)) (takenOver ++
      [(1, .periodicCombine), (1, .combine 0), (1, .act (.endMap 0)), (1, .periodicCombine),
        (1, .combine 0)]) := by decide +kernel
  have hrun : Ends (step (lostMap 100)) (init (lostMap 100)) (takenOver ++
      [(1, .periodicCombine), (1, .combine 0), (1, .act (.endMap 0)), (1, .periodicCombine),
        (1, .combine 0)]) fun s => (s.node 1).history.map (·.ids) = [[0], [1]] ∧
      (s.node 1).controller.pc.updateTracker 0 0 = {1} := by decide +kernel
  obtain ⟨s, hs, hids, htracker⟩ := hrun
  exact ⟨s, hs, hids, htracker,
    fun a => ((never_half_joined (lostMap 100) s (reach_of_run_ok _ hok hs)).2 a).1⟩

/-- Without the timer in between node 1 sends one batch for both, of which partition 1 is
joined already. -/
theorem reassigned_half_joined :
    run (step (lostMap 100)) (init (lostMap 100)) (takenOver ++
      [(1, .act (.endMap 0)), (1, .periodicCombine), (1, .combine 0), (1, .deliver 0)]) =
        .error (.plane (.controller .joinedBeforeMixed)) := by
  rfl

end Survivors

end Tangram
