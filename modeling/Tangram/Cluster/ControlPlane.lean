import Tangram.Scheduler.Protocol
import Tangram.Worker.DelayedCombiner
import Tangram.Worker.Progress

/-!
# The control plane of a plan

The control manager and the controllers of all nodes, from the moment the last
node has reported `kSetup`.  What the manager broadcasts and what a controller
reports arrives in order; a join message may arrive at any time after it was
sent, tasks and map outputs are run in any order.  Once a node has received
`kTerminatePlan` its controller ignores every message (`Controller::Process`),
while tasks that were submitted may still run.

`Move` lists what one step can do to it.
-/

namespace Tangram

open StepRun

variable {K M O B : Type}

/-! ## State -/

/-- A `Controller` with its plan controller. -/
structure Controller (K M B : Type) where
  pc : PlanController (List B)
  combiner : DelayedCombiner K M B
  terminated : Bool
  /-- How many of the manager's broadcasts have been received here. -/
  heard : Nat
  /-- How many of the reports from here the manager has received. -/
  told : Nat
  /-- The join messages that came after the end of the plan (a record of the run). -/
  dropped : List (JoinMeta (List B))

structure ControlPlane (K M B : Type) where
  sched : ControlManager
  controller : Int → Controller K M B

inductive PlaneCheck
  | scheduler (e : ControlCheck)
  | controller (e : Check)
  | combiner (e : StreamCheck)
deriving DecidableEq, Repr

/-- What can happen at a node. -/
inductive PlaneEvent
  /-- The next broadcast is received. -/
  | hear
  /-- The next report is received by the manager. -/
  | tell
  /-- The `i`-th join message sent from here arrives. -/
  | deliver (i : Nat)
  | combine (i : Nat)
  | periodicCombine
  | beginMap (i : Nat)
  | endMap (i : Nat)
  | execFetch (i : Nat)
  | process (i : Nat)
  | kFetchRequest (f : FetchReq)
  | releaseFetch (i : Nat)

/-- A request for partitions or a release is sent by a fetcher. -/
def PlaneEvent.ofFetcher : PlaneEvent → Bool
  | .kFetchRequest _ | .releaseFetch _ => true
  | _ => false

namespace Controller

variable (job : MapJoin K M O B) (n : Int)

/-- After `Setup`; the broadcast of `kSetup` itself has been received. -/
def init : Controller K M B := ⟨.setup (job.spec n), .init, false, 1, 0, []⟩

def act (x : Controller K M B) (a : PlanController.Action (List B)) :
    Except PlaneCheck (Controller K M B) := do
  let pc ← (PlanController.step (job.spec n) x.pc a).mapError .controller
  return { x with pc := pc }

/-- `Controller::Process`: the plan is not there any more once it has been terminated. -/
def process (x : Controller K M B) (a : PlanController.Action (List B)) :
    Except PlaneCheck (Controller K M B) :=
  if x.terminated then .ok x else x.act job n a

def hear (broadcasts : List Broadcast) (x : Controller K M B) :
    Except PlaneCheck (Controller K M B) :=
  match broadcasts[x.heard]? with
  | none => .ok x
  | some b =>
    let x := { x with heard := x.heard + 1 }
    match b with
    | .kSetup => .ok x
    | .kStart => x.process job n .kStart
    | .kUpdateVersion v => x.process job n (.kUpdateVersion v)
    | .kTerminatePlan => .ok { x with terminated := true }

/-- What is sent to the manager; the last report is that of `TerminatePlan`. -/
def reports (x : Controller K M B) : List ControllerMsg :=
  x.pc.toScheduler ++ if x.terminated then [⟨.kFinish, -1, n, job.planId, -1⟩] else []

/-- The map task that reaches the delayed combiner. -/
def endedMap (x : Controller K M B) (i : Nat) : Option MapTask :=
  x.pc.mapExecutor[i]?.filter fun t =>
    t.started && (x.pc.stopUpdateingPartitions t.partId).isNone

/-- The output of the task goes to the combiner. -/
def addOutput (x : Controller K M B) (i : Nat) : Except PlaneCheck (DelayedCombiner K M B) :=
  match x.endedMap i with
  | none => .ok x.combiner
  | some t => (x.combiner.addMapOutput job n t.partId t.version).mapError .combiner

def endMap (x : Controller K M B) (i : Nat) : Except PlaneCheck (Controller K M B) := do
  let combiner ← x.addOutput job n i
  act job n { x with combiner := combiner } (.endMap i)

/-- The key of a message in the stream store. -/
def streamKey (m : JoinMeta (List B)) : Int × List Int × Int := (m.partId, m.ids, m.version)

/-- `stream_store_.Get` and `Remove`, for a message in local mode. -/
def takeStream (x : Controller K M B) (m : JoinMeta (List B)) :
    Except PlaneCheck (Controller K M B) :=
  if m.localMode then do
    (check .get ((x.combiner.streamStore (streamKey m)).isSome)).mapError .combiner
    return { x with
      combiner := { x.combiner with
        streamStore := Function.update x.combiner.streamStore (streamKey m) none } }
  else .ok x

def takeTaskStream (x : Controller K M B) (i : Nat) : Except PlaneCheck (Controller K M B) :=
  match x.pc.fetchExecutor[i]? with
  | some (.join m) => x.takeStream m
  | _ => .ok x

def execFetch (x : Controller K M B) (i : Nat) : Except PlaneCheck (Controller K M B) := do
  let x ← x.takeTaskStream i
  act job n x (.execFetch i)

def combine [LinearOrder K] (x : Controller K M B) (i : Nat) :
    Except PlaneCheck (Controller K M B) := do
  let combiner ← (x.combiner.runTask job n i).mapError .combiner
  return { x with combiner := combiner }

def takeSent (x : Controller K M B) (i : Nat) : Controller K M B :=
  { x with combiner := { x.combiner with sent := x.combiner.sent.eraseIdx i } }

/-- A join message arrives. -/
def receive (x : Controller K M B) (m : JoinMeta (List B)) : Except PlaneCheck (Controller K M B) :=
  if x.terminated then .ok { x with dropped := x.dropped ++ [m] }
  else x.act job n (.kReceiveJoin m)

end Controller

/-! ## One step -/

namespace ControlPlane

variable (job : MapJoin K M O B)

def init : ControlPlane K M B := ⟨.started job.plan, Controller.init job⟩

def set (s : ControlPlane K M B) (n : Int) (x : Controller K M B) : ControlPlane K M B :=
  { s with controller := Function.update s.controller n x }

def tell (s : ControlPlane K M B) (n : Int) : Except PlaneCheck (ControlPlane K M B) :=
  let x := s.controller n
  match (x.reports job n)[x.told]? with
  | none => .ok s
  | some r => do
    let sched ← (s.sched.control job.plan r).mapError .scheduler
    return { s.set n { x with told := x.told + 1 } with sched := sched }

def deliver (s : ControlPlane K M B) (n : Int) (i : Nat) :
    Except PlaneCheck (ControlPlane K M B) :=
  match (s.controller n).combiner.sent[i]? with
  | none => .ok s
  | some m => do
    let s := s.set n ((s.controller n).takeSent i)
    let d := job.owner m.partId
    let y ← (s.controller d).receive job d m
    return s.set d y

/-- What happens at one node and changes nothing but its controller. -/
def atNode [LinearOrder K] (broadcasts : List Broadcast) (n : Int) (x : Controller K M B) :
    PlaneEvent → Except PlaneCheck (Controller K M B)
  | .hear => x.hear job n broadcasts
  | .combine i => x.combine job n i
  | .periodicCombine => .ok { x with combiner := x.combiner.periodicCombine job }
  | .beginMap i => x.act job n (.beginMap i)
  | .endMap i => x.endMap job n i
  | .execFetch i => x.execFetch job n i
  | .process i => x.process job n (.process i)
  | .kFetchRequest f => x.process job n (.kFetchRequest f)
  | .releaseFetch i => x.process job n (.releaseFetch i)
  | .tell | .deliver _ => .ok x

def step [LinearOrder K] (s : ControlPlane K M B) :
    Int × PlaneEvent → Except PlaneCheck (ControlPlane K M B)
  | (n, e) =>
    if n ∈ job.nodes then
      match e with
      | .tell => s.tell job n
      | .deliver i => s.deliver job n i
      | e => do
        let x ← atNode job s.sched.broadcasts n (s.controller n) e
        return s.set n x
    else .ok s

/-- The states of every run. -/
def Reachable [LinearOrder K] (s : ControlPlane K M B) : Prop :=
  Reach (step job) (fun _ _ => True) (init job) s

/-! ## What a step can do -/

section Set

variable (s : ControlPlane K M B) (n k : Int) (x : Controller K M B)

theorem set_controller : (s.set n x).controller k = if k = n then x else s.controller k := by
  by_cases h : k = n
  · subst h
    simp [set]
  · simp [set, h]

variable {n k} in
theorem set_controller_ne (h : k ≠ n) : (s.set n x).controller k = s.controller k := by
  rw [set_controller, if_neg h]

@[simp] theorem set_controller_self : (s.set n x).controller n = x := by simp [set]

end Set

/-- The action that an event is for its controller; what arrives from the manager, the join
messages and the ends of maps are not among these. -/
def Quiet {β : Type} : PlaneEvent → PlanController.Action β → Prop
  | .beginMap i, .beginMap j => i = j
  | .execFetch i, .execFetch j => i = j
  | .process i, .process j => i = j
  | .kFetchRequest f, .kFetchRequest g => f = g
  | .releaseFetch i, .releaseFetch j => i = j
  | _, _ => False

/-- Everything of a controller but the plan controller and the streams it keeps is as it was. -/
structure SameOut (x x' : Controller K M B) : Prop where
  store : x'.combiner.store = x.combiner.store
  executor : x'.combiner.executor = x.combiner.executor
  sent : x'.combiner.sent = x.combiner.sent
  terminated : x'.terminated = x.terminated
  heard : x'.heard = x.heard
  told : x'.told = x.told
  dropped : x'.dropped = x.dropped

inductive Move [LinearOrder K] (s : ControlPlane K M B) :
    PlaneEvent → ControlPlane K M B → Prop
  | stay (e : PlaneEvent) : Move s e s
  /-- A controller processes a message or runs a task. -/
  | act (n : Int) (hn : n ∈ job.nodes) (e : PlaneEvent) (a : PlanController.Action (List B))
      (ha : Quiet e a) (x : Controller K M B) (hx : SameOut (s.controller n) x)
      (hstream : (∀ i, e ≠ .execFetch i) →
        x.combiner.streamStore = (s.controller n).combiner.streamStore)
      (hstep : PlanController.step (job.spec n) (s.controller n).pc a = .ok x.pc) :
      Move s e (s.set n x)
  /-- A broadcast is ignored. -/
  | ignore (n : Int) (hn : n ∈ job.nodes) (b : Broadcast)
      (hb : s.sched.broadcasts[(s.controller n).heard]? = some b)
      (h : b = .kSetup ∨ (s.controller n).terminated = true) :
      Move s .hear (s.set n { s.controller n with heard := (s.controller n).heard + 1 })
  | start (n : Int) (hn : n ∈ job.nodes)
      (hb : s.sched.broadcasts[(s.controller n).heard]? = some .kStart)
      (pc : PlanController (List B))
      (hstep : PlanController.step (job.spec n) (s.controller n).pc .kStart = .ok pc) :
      Move s .hear (s.set n { s.controller n with pc := pc, heard := (s.controller n).heard + 1 })
  | announce (n : Int) (hn : n ∈ job.nodes) (v : Int)
      (hb : s.sched.broadcasts[(s.controller n).heard]? = some (.kUpdateVersion v))
      (pc : PlanController (List B))
      (hstep : PlanController.step (job.spec n) (s.controller n).pc (.kUpdateVersion v) = .ok pc) :
      Move s .hear (s.set n { s.controller n with pc := pc, heard := (s.controller n).heard + 1 })
  | terminate (n : Int) (hn : n ∈ job.nodes)
      (hb : s.sched.broadcasts[(s.controller n).heard]? = some .kTerminatePlan) :
      Move s .hear (s.set n { s.controller n with
        terminated := true, heard := (s.controller n).heard + 1 })
  | tell (n : Int) (hn : n ∈ job.nodes) (r : ControllerMsg)
      (hr : ((s.controller n).reports job n)[(s.controller n).told]? = some r)
      (sched : ControlManager) (hstep : s.sched.control job.plan r = .ok sched) :
      Move s .tell { s.set n { s.controller n with told := (s.controller n).told + 1 } with
        sched := sched }
  | deliver (n : Int) (hn : n ∈ job.nodes) (i : Nat) (m : JoinMeta (List B))
      (hi : (s.controller n).combiner.sent[i]? = some m)
      (hend : (s.controller (job.owner m.partId)).terminated = false)
      (pc : PlanController (List B))
      (hstep : PlanController.step (job.spec (job.owner m.partId))
        (s.controller (job.owner m.partId)).pc (.kReceiveJoin m) = .ok pc) :
      Move s (.deliver i) ((s.set n ((s.controller n).takeSent i)).set (job.owner m.partId)
        { (s.set n ((s.controller n).takeSent i)).controller (job.owner m.partId) with pc := pc })
  | drop (n : Int) (hn : n ∈ job.nodes) (i : Nat) (m : JoinMeta (List B))
      (hi : (s.controller n).combiner.sent[i]? = some m)
      (hend : (s.controller (job.owner m.partId)).terminated = true) :
      Move s (.deliver i) ((s.set n ((s.controller n).takeSent i)).set (job.owner m.partId)
        { (s.set n ((s.controller n).takeSent i)).controller (job.owner m.partId) with
          dropped := (s.controller (job.owner m.partId)).dropped ++ [m] })
  | combine (n : Int) (hn : n ∈ job.nodes) (i : Nat) (d : DelayedCombiner K M B)
      (h : (s.controller n).combiner.runTask job n i = .ok d) :
      Move s (.combine i) (s.set n { s.controller n with combiner := d })
  | periodicCombine (n : Int) (hn : n ∈ job.nodes) :
      Move s .periodicCombine (s.set n { s.controller n with
        combiner := (s.controller n).combiner.periodicCombine job })
  | endMap (n : Int) (hn : n ∈ job.nodes) (i : Nat) (t : MapTask)
      (hi : (s.controller n).pc.mapExecutor[i]? = some t)
      (hs : t.started = true) (d : DelayedCombiner K M B)
      (h : (s.controller n).combiner.addMapOutput job n t.partId t.version = .ok d)
      (hstop : (s.controller n).pc.stopUpdateingPartitions t.partId = none) :
      Move s (.endMap i) (s.set n { s.controller n with
        combiner := d, pc := PlanController.endMap (s.controller n).pc i })
  /-- A map ends without output: it was not started, or it is aborted. -/
  | endNoMap (n : Int) (hn : n ∈ job.nodes) (i : Nat)
      (h : (s.controller n).endedMap i = none) :
      Move s (.endMap i) (s.set n { s.controller n with
        pc := PlanController.endMap (s.controller n).pc i })

section Inversion

variable {job} [LinearOrder K] {s s' : ControlPlane K M B} {n : Int} {x x' : Controller K M B}
  {e : PlaneEvent} {a : PlanController.Action (List B)}

omit [LinearOrder K] in
theorem act_eq_ok (h : x.act job n a = .ok x') :
    ∃ pc, PlanController.step (job.spec n) x.pc a = .ok pc ∧ x' = { x with pc := pc } := by
  obtain ⟨pc, hpc, h⟩ := bind_eq_ok.mp h
  exact ⟨pc, mapError_eq_ok.mp hpc, (Except.ok.inj h).symm⟩

omit [LinearOrder K] in
theorem sameOut_pc (pc : PlanController (List B)) : SameOut x { x with pc := pc } :=
  ⟨rfl, rfl, rfl, rfl, rfl, rfl, rfl⟩

omit [LinearOrder K] in
theorem set_self : s.set n (s.controller n) = s := by simp [set]

theorem move_act (hn : n ∈ job.nodes) (ha : Quiet e a) (h : (s.controller n).act job n a = .ok x) :
    Move job s e (s.set n x) := by
  obtain ⟨pc, hpc, rfl⟩ := act_eq_ok h
  exact .act n hn e a ha _ (sameOut_pc pc) (fun _ => rfl) hpc

theorem move_process (hn : n ∈ job.nodes) (ha : Quiet e a)
    (h : (s.controller n).process job n a = .ok x) : Move job s e (s.set n x) := by
  unfold Controller.process at h
  split at h
  · cases h
    rw [set_self]
    exact .stay e
  · exact move_act hn ha h

theorem move_hear (hn : n ∈ job.nodes)
    (h : (s.controller n).hear job n s.sched.broadcasts = .ok x) :
    Move job s .hear (s.set n x) := by
  unfold Controller.hear at h
  split at h
  · cases h
    rw [set_self]
    exact .stay _
  · next b hb =>
    cases b with
    | kSetup =>
      cases h
      exact .ignore n hn _ hb (.inl rfl)
    | kStart =>
      simp only [Controller.process] at h
      split at h
      · next ht =>
        cases h
        exact .ignore n hn _ hb (.inr ht)
      · obtain ⟨pc, hpc, rfl⟩ := act_eq_ok h
        exact .start n hn hb pc hpc
    | kUpdateVersion v =>
      simp only [Controller.process] at h
      split at h
      · next ht =>
        cases h
        exact .ignore n hn _ hb (.inr ht)
      · obtain ⟨pc, hpc, rfl⟩ := act_eq_ok h
        exact .announce n hn v hb pc hpc
    | kTerminatePlan =>
      cases h
      exact .terminate n hn hb

theorem move_endMap {i : Nat} (hn : n ∈ job.nodes)
    (h : (s.controller n).endMap job n i = .ok x) : Move job s (.endMap i) (s.set n x) := by
  unfold Controller.endMap at h
  obtain ⟨d, hd, h⟩ := bind_eq_ok.mp h
  obtain ⟨pc, hpc, rfl⟩ := act_eq_ok h
  obtain rfl : pc = PlanController.endMap (s.controller n).pc i := (Except.ok.inj hpc).symm
  unfold Controller.addOutput at hd
  split at hd
  · next hnone =>
    cases hd
    exact .endNoMap n hn i hnone
  · next t ht =>
    obtain ⟨hi, hf⟩ := Option.filter_eq_some_iff.mp ht
    simp only [Bool.and_eq_true, Option.isNone_iff_eq_none] at hf
    exact .endMap n hn i t hi hf.1 d (mapError_eq_ok.mp hd) hf.2

omit [LinearOrder K] in
theorem takeStream_eq_ok {m : JoinMeta (List B)} (h : x.takeStream m = .ok x') :
    x'.pc = x.pc ∧ SameOut x x' := by
  unfold Controller.takeStream at h
  split at h
  · obtain ⟨_, _, h⟩ := bind_eq_ok.mp h
    cases h
    exact ⟨rfl, rfl, rfl, rfl, rfl, rfl, rfl, rfl⟩
  · cases h
    exact ⟨rfl, rfl, rfl, rfl, rfl, rfl, rfl, rfl⟩

theorem move_execFetch {i : Nat} (hn : n ∈ job.nodes)
    (h : (s.controller n).execFetch job n i = .ok x) :
    Move job s (.execFetch i) (s.set n x) := by
  unfold Controller.execFetch at h
  obtain ⟨x₁, h₁, h⟩ := bind_eq_ok.mp h
  obtain ⟨hpc, hout⟩ : x₁.pc = (s.controller n).pc ∧ SameOut (s.controller n) x₁ := by
    unfold Controller.takeTaskStream at h₁
    split at h₁
    · exact takeStream_eq_ok h₁
    · cases h₁
      exact ⟨rfl, rfl, rfl, rfl, rfl, rfl, rfl, rfl⟩
  obtain ⟨pc, hstep, rfl⟩ := act_eq_ok h
  rw [hpc] at hstep
  exact .act n hn (.execFetch i) (.execFetch i) rfl _ { hout with }
    (fun he => absurd rfl (he i)) hstep

theorem move_atNode (hn : n ∈ job.nodes)
    (h : atNode job s.sched.broadcasts n (s.controller n) e = .ok x) :
    Move job s e (s.set n x) := by
  cases e with
  | hear => exact move_hear hn h
  | combine i =>
    obtain ⟨d, hd, h⟩ := bind_eq_ok.mp h
    cases h
    exact .combine n hn i d (mapError_eq_ok.mp hd)
  | periodicCombine =>
    cases h
    exact .periodicCombine n hn
  | beginMap i => exact move_act (a := .beginMap i) hn rfl h
  | endMap i => exact move_endMap hn h
  | execFetch i => exact move_execFetch hn h
  | process i => exact move_process (a := .process i) hn rfl h
  | kFetchRequest f => exact move_process (a := .kFetchRequest f) hn rfl h
  | releaseFetch i => exact move_process (a := .releaseFetch i) hn rfl h
  | tell =>
    cases h
    rw [set_self]
    exact .stay _
  | deliver i =>
    cases h
    rw [set_self]
    exact .stay _

theorem move_tell (hn : n ∈ job.nodes) (h : s.tell job n = .ok s') : Move job s .tell s' := by
  simp only [tell] at h
  split at h
  · cases h
    exact .stay _
  · next r hr =>
    obtain ⟨sched, hs, h⟩ := bind_eq_ok.mp h
    cases h
    exact .tell n hn r hr sched (mapError_eq_ok.mp hs)

omit [LinearOrder K] in
/-- Taking a message off does not change what a controller is. -/
theorem set_takeSent_pc (s : ControlPlane K M B) (n k : Int) (i : Nat) :
    ((s.set n ((s.controller n).takeSent i)).controller k).pc = (s.controller k).pc ∧
      ((s.set n ((s.controller n).takeSent i)).controller k).terminated =
        (s.controller k).terminated ∧
      ((s.set n ((s.controller n).takeSent i)).controller k).dropped = (s.controller k).dropped ∧
      ((s.set n ((s.controller n).takeSent i)).controller k).told = (s.controller k).told := by
  rw [set_controller]
  split
  · next h =>
    subst h
    exact ⟨rfl, rfl, rfl, rfl⟩
  · exact ⟨rfl, rfl, rfl, rfl⟩

theorem move_deliver {i : Nat} (hn : n ∈ job.nodes) (h : s.deliver job n i = .ok s') :
    Move job s (.deliver i) s' := by
  simp only [deliver] at h
  split at h
  · cases h
    exact .stay _
  · next m hi =>
    obtain ⟨y, hy, h⟩ := bind_eq_ok.mp h
    cases h
    obtain ⟨hpc, hend, hdrop, -⟩ := set_takeSent_pc s n (job.owner m.partId) i
    unfold Controller.receive at hy
    split at hy
    · next ht =>
      cases hy
      rw [hdrop]
      exact .drop n hn i m hi (hend ▸ ht)
    · next ht =>
      obtain ⟨pc, hstep, rfl⟩ := act_eq_ok hy
      rw [hend] at ht
      rw [hpc] at hstep
      exact .deliver n hn i m hi (by simpa using ht) pc hstep

/-- **One step** of the control plane. -/
theorem step_move (h : step job s (n, e) = .ok s') : Move job s e s' := by
  simp only [step] at h
  split at h
  · next hn =>
    split at h
    · exact move_tell hn h
    · exact move_deliver hn h
    · obtain ⟨x, hx, h⟩ := bind_eq_ok.mp h
      cases h
      exact move_atNode hn hx
  · cases h
    exact .stay _

/-- What controller `k` does when an event happens: versions that it is announced have been
broadcast; a request for a partition, or a task that it runs, is the event itself. -/
def Acts (job : MapJoin K M O B) (s : ControlPlane K M B) (e : PlaneEvent) (k : Int)
    (pc : PlanController (List B)) : Prop :=
  ∃ a, PlanController.step (job.spec k) (s.controller k).pc a = .ok pc ∧
    (∀ v, a = .kUpdateVersion v → .kUpdateVersion v ∈ s.sched.broadcasts) ∧
    (∀ f, a = .kFetchRequest f → e = .kFetchRequest f) ∧
    ∀ i, a = .execFetch i → e = .execFetch i

/-- Every controller takes a step of its own, or none. -/
theorem move_pc (hm : Move job s e s') (k : Int) :
    (s'.controller k).pc = (s.controller k).pc ∨ Acts job s e k (s'.controller k).pc := by
  -- nothing but node `n` moves
  have hset : ∀ (n : Int) (x : Controller K M B),
      (x.pc = (s.controller n).pc ∨ Acts job s e n x.pc) →
      ((s.set n x).controller k).pc = (s.controller k).pc ∨
        Acts job s e k ((s.set n x).controller k).pc := by
    intro n x hx
    rw [set_controller]
    split
    · next hk => exact hk ▸ hx
    · exact .inl rfl
  cases hm with
  | stay => exact .inl rfl
  | act n hn e a ha x hx hstream hstep =>
    refine hset n x (.inr ⟨a, hstep, ?_, ?_, ?_⟩)
    · rintro v rfl
      cases e <;> exact absurd ha not_false
    · rintro f rfl
      cases e with
      | kFetchRequest g => exact congrArg _ ha
      | _ => exact absurd ha not_false
    · rintro i rfl
      cases e with
      | execFetch j => exact congrArg _ ha
      | _ => exact absurd ha not_false
  | ignore n hn b hb hig => exact hset n _ (.inl rfl)
  | start n hn hb pc hstep => exact hset n _ (.inr ⟨_, hstep, by simp, by simp, by simp⟩)
  | announce n hn v hb pc hstep =>
    refine hset n _ (.inr ⟨_, hstep, fun w hw => ?_, by simp, by simp⟩)
    cases hw
    exact List.mem_of_getElem? hb
  | terminate n hn hb => exact hset n _ (.inl rfl)
  | tell n hn r hr sched hstep => exact hset n _ (.inl rfl)
  | deliver n hn i m hi hend pc hstep =>
    rw [set_controller]
    split
    · next hk =>
      subst hk
      exact .inr ⟨_, hstep, by simp, by simp, by simp⟩
    · exact .inl (set_takeSent_pc s n k i).1
  | drop n hn i m hi hend =>
    rw [set_controller]
    split
    · next hk =>
      subst hk
      exact .inl (set_takeSent_pc s n _ i).1
    · exact .inl (set_takeSent_pc s n k i).1
  | combine n hn i d hd => exact hset n _ (.inl rfl)
  | periodicCombine n hn => exact hset n _ (.inl rfl)
  | endMap n hn i t hi hs d hd hstop =>
    exact hset n _ (.inr ⟨.endMap i, rfl, by simp, by simp, by simp⟩)
  | endNoMap n hn i hnone => exact hset n _ (.inr ⟨.endMap i, rfl, by simp, by simp, by simp⟩)

/-- The manager moves only when it receives a report, and then nothing else moves. -/
theorem move_sched (hm : Move job s e s') :
    s'.sched = s.sched ∨ ∃ n r, r ∈ (s.controller n).reports job n ∧
      s.sched.control job.plan r = .ok s'.sched ∧
      ∀ k, (s'.controller k).pc = (s.controller k).pc := by
  cases hm with
  | tell n hn r hr sched hstep =>
    refine .inr ⟨n, r, List.mem_of_getElem? hr, hstep, fun k => ?_⟩
    show ((s.set n _).controller k).pc = _
    rw [set_controller]
    split
    · next hk => rw [hk]
    · rfl
  | _ => exact .inl rfl

/-- **Invariants of the control plane.** -/
theorem Reachable.induct {P : ControlPlane K M B → Prop} (hs : Reachable job s)
    (h0 : P (init job)) (hmove : ∀ s e s', P s → Move job s e s' → P s') : P s :=
  Reach.induct hs h0 fun t a u _ hP _ hstep => hmove t a.2 u hP (step_move hstep)

end Inversion

end ControlPlane

end Tangram
