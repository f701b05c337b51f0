import Tangram.Cluster.Isolation

/-!
# Setting up a plan

What comes before the control plane (`core/worker/controller.cpp`): the manager
sends `kSetup` to all nodes, a controller that receives it creates the plan
controller and reports, and the last report makes the manager send `kStart` and
run `Init`.  Messages of the plan find the plan controller in
`plan_controllers_` or are ignored (`Controller::Process`), so nothing but the
order of the messages makes sure that it is there.

A fetcher that has been called by a map of the plan may send requests at any
time from then on, for any partition; join messages and requests arrive in any
order.

    once the last kSetup is reported, a run is a run of the control plane   (phase_reachable)
-/

namespace Tangram

open StepRun ControlPlane Controller

variable {K M O B : Type}

/-! ## State -/

/-- The `Controller` of a node and what it sends for the plan. -/
structure Host (K M B : Type) where
  /-- The plan controller, from `Setup` on.  Its tasks may outlive its place in
  `plan_controllers_`. -/
  plan : Option (Controller K M B)
  /-- How many broadcasts came before there was a plan controller. -/
  early : Nat
  /-- The manager has received the report of `Setup`. -/
  reported : Bool
  /-- A map of the plan has called the fetcher of this node. -/
  asked : Bool
  /-- The `kFetchRequest`s on their way. -/
  requests : List FetchReq

structure Handshake (K M B : Type) where
  sched : ControlManager
  host : Int → Host K M B

/-- The messages of the plan that a controller receives: from the manager, from other workers,
from the fetcher of its own node and (by their place in the work queue) from its own tasks. -/
inductive Mail (β : Type)
  | broadcast (b : Broadcast)
  | kReceiveJoin (m : JoinMeta β)
  | kFetchRequest (f : FetchReq)
  | kFinishFetch (i : Nat)
  | completion (i : Nat)

def Mail.isSetup {β : Type} : Mail β → Bool
  | .broadcast .kSetup => true
  | _ => false

inductive HandshakeEvent
  /-- `releaseFetch` is the arrival of a `kFinishFetch`; requests come as `arrive`. -/
  | plane (e : PlaneEvent)
  /-- Map task `i` calls the fetcher. -/
  | ask (i : Nat)
  /-- The fetcher sends a request. -/
  | request (f : FetchReq)
  /-- The `i`-th request sent from here arrives. -/
  | arrive (i : Nat)

namespace Host

/-- The plan is in `plan_controllers_`. -/
def has (h : Host K M B) : Bool := h.plan.any fun x => !x.terminated

/-- `TerminatePlan` has run. -/
def terminated (h : Host K M B) : Bool := h.plan.any Controller.terminated

def heard (h : Host K M B) : Nat := h.plan.elim h.early Controller.heard

def sent (h : Host K M B) : List (JoinMeta (List B)) := h.plan.elim [] fun x => x.combiner.sent

def workQueue (h : Host K M B) : List Completion := h.plan.elim [] fun x => x.pc.workQueue

def mapExecutor (h : Host K M B) : List MapTask := h.plan.elim [] fun x => x.pc.mapExecutor

/-- A broadcast is taken from the channel. -/
def hearNext (h : Host K M B) : Host K M B :=
  match h.plan with
  | none => { h with early := h.early + 1 }
  | some x => { h with plan := some { x with heard := x.heard + 1 } }

def takeSent (h : Host K M B) (i : Nat) : Host K M B :=
  { h with plan := h.plan.map fun x => x.takeSent i }

def takeRequest (h : Host K M B) (i : Nat) : Host K M B :=
  { h with requests := h.requests.eraseIdx i }

/-- A map that has started may call the fetcher. -/
def ask (h : Host K M B) (i : Nat) : Host K M B :=
  { h with asked := h.asked || h.mapExecutor[i]?.any MapTask.started }

def request (h : Host K M B) (f : FetchReq) : Host K M B :=
  { h with requests := if h.asked then h.requests ++ [f] else h.requests }

end Host

/-! ## Controller::Process -/

section Process

variable (job : MapJoin K M O B) (n : Int)

/-- The handlers of the plan controller, as the control plane has them. -/
def Controller.handle (x : Controller K M B) :
    Mail (List B) → Except PlaneCheck (Controller K M B)
  | .broadcast .kSetup => .ok x
  | .broadcast .kStart => x.process job n .kStart
  | .broadcast (.kUpdateVersion v) => x.process job n (.kUpdateVersion v)
  | .broadcast .kTerminatePlan => .ok { x with terminated := true }
  | .kReceiveJoin m => x.receive job n m
  | .kFetchRequest f => x.process job n (.kFetchRequest f)
  | .kFinishFetch i => x.process job n (.releaseFetch i)
  | .completion i => x.process job n (.process i)

namespace Host

/-- `Controller::Setup`.  The manager sends `kSetup` once. -/
def setup (h : Host K M B) : Host K M B :=
  match h.plan with
  | none => { h with plan := some { Controller.init job n with heard := h.early } }
  | some _ => h

/-- A join message that is ignored is recorded. -/
def ignore (h : Host K M B) : Mail (List B) → Host K M B
  | .kReceiveJoin m =>
    { h with plan := h.plan.map fun x => { x with dropped := x.dropped ++ [m] } }
  | _ => h

def handle (h : Host K M B) (m : Mail (List B)) : Except PlaneCheck (Host K M B) :=
  match h.plan with
  | none => .ok h
  | some x => do
    let x ← x.handle job n m
    return { h with plan := some x }

/-- `Controller::Process`. -/
def process (h : Host K M B) (m : Mail (List B)) : Except PlaneCheck (Host K M B) :=
  if m.isSetup = false ∧ h.has = false then .ok (h.ignore m)
  else if m.isSetup then .ok (h.setup job n)
  else h.handle job n m

/-- What happens at the node without a message. -/
def act [LinearOrder K] (broadcasts : List Broadcast) (h : Host K M B) (e : PlaneEvent) :
    Except PlaneCheck (Host K M B) :=
  match h.plan with
  | none => .ok h
  | some x => do
    let x ← ControlPlane.atNode job broadcasts n x e
    return { h with plan := some x }

/-- What the manager receives next from here: the report of `Setup` is the first. -/
def nextReport (h : Host K M B) : Option ControllerMsg :=
  h.plan.bind fun x =>
    if h.reported then (x.reports job n)[x.told]? else some (ControlManager.setupMsg job.plan n)

def takeReport (h : Host K M B) : Host K M B :=
  if h.reported then { h with plan := h.plan.map fun x => { x with told := x.told + 1 } }
  else { h with reported := true }

end Host

end Process

/-! ## One step -/

namespace ControlManager

/-- `Init` has run. -/
def Initialised (plan : Plan) (s : ControlManager) : Prop :=
  ∃ s₀, Reach (control plan) (fun _ _ => True) (init plan s₀) s

theorem Initialised.control {plan : Plan} {s s' : ControlManager} {r : ControllerMsg}
    (h : Initialised plan s) (hr : s.control plan r = .ok s') : Initialised plan s' := by
  obtain ⟨s₀, h⟩ := h
  exact ⟨s₀, .tail h trivial hr⟩

end ControlManager

namespace Handshake

variable (job : MapJoin K M O B) {y : Host K M B} {e : HandshakeEvent} {m : Mail (List B)}

/-- `RunPlan` has sent `kSetup`. -/
def init : Handshake K M B := ⟨.runPlan, fun _ => ⟨none, 0, false, false, []⟩⟩

def set (s : Handshake K M B) (n : Int) (h : Host K M B) : Handshake K M B :=
  { s with host := Function.update s.host n h }

/-- The message that an event at `n` brings, and the node that it is for. -/
def addressed (s : Handshake K M B) (n : Int) : HandshakeEvent → Option (Int × Mail (List B))
  | .plane .hear => s.sched.broadcasts[(s.host n).heard]?.map fun b => (n, .broadcast b)
  | .plane (.deliver i) =>
    (s.host n).sent[i]?.map fun m => (job.owner m.partId, .kReceiveJoin m)
  | .plane (.process i) => (s.host n).workQueue[i]?.map fun _ => (n, .completion i)
  | .plane (.releaseFetch i) => if (s.host n).asked then some (n, .kFinishFetch i) else none
  | .arrive i => (s.host n).requests[i]?.map fun f => (getNodeId f.recver, .kFetchRequest f)
  | _ => none

/-- The message that a controller receives by an event. -/
def mail (s : Handshake K M B) (n : Int) (e : HandshakeEvent) : Option (Int × Mail (List B)) :=
  (addressed job s n e).filter fun dm => dm.1 ∈ job.nodes

/-- The message leaves its channel; those of the node itself leave the queue when they are
processed. -/
def take (s : Handshake K M B) (n : Int) : HandshakeEvent → Handshake K M B
  | .plane .hear => s.set n (s.host n).hearNext
  | .plane (.deliver i) => s.set n ((s.host n).takeSent i)
  | .arrive i => s.set n ((s.host n).takeRequest i)
  | _ => s

def receive (s : Handshake K M B) (d : Int) (m : Mail (List B)) :
    Except PlaneCheck (Handshake K M B) := do
  let h ← (s.host d).process job d m
  return s.set d h

/-- The manager receives a report. -/
def tell (s : Handshake K M B) (n : Int) : Except PlaneCheck (Handshake K M B) :=
  match (s.host n).nextReport job n with
  | none => .ok s
  | some r => do
    let sched ← (s.sched.control job.plan r).mapError .scheduler
    return { s.set n (s.host n).takeReport with sched := sched }

def act [LinearOrder K] (s : Handshake K M B) (n : Int) :
    HandshakeEvent → Except PlaneCheck (Handshake K M B)
  | .ask i => .ok (s.set n ((s.host n).ask i))
  | .request f => .ok (s.set n ((s.host n).request f))
  | .arrive _ => .ok s
  | .plane .tell => s.tell job n
  | .plane e =>
    if e.ofFetcher then .ok s
    else do
      let h ← (s.host n).act job n s.sched.broadcasts e
      return s.set n h

def step [LinearOrder K] (s : Handshake K M B) :
    Int × HandshakeEvent → Except PlaneCheck (Handshake K M B)
  | (n, e) =>
    if n ∈ job.nodes then
      match mail job s n e with
      | some (d, m) => (s.take n e).receive job d m
      | none => s.act job n e
    else .ok s

/-- The states of every run. -/
def Reachable [LinearOrder K] (s : Handshake K M B) : Prop :=
  Reach (step job) (fun _ _ => True) init s

/-! ## After the barrier -/

section Sim

variable {job} {s s' : Handshake K M B} {p : ControlPlane K M B} {n : Int} {x : Controller K M B}

/-- Every node has its plan controller, and the manager and the controllers are those of the
control plane. -/
structure Sim (job : MapJoin K M O B) (s : Handshake K M B) (p : ControlPlane K M B) : Prop where
  sched : s.sched = p.sched
  plan : ∀ n ∈ job.nodes, (s.host n).plan = some (p.controller n)
  reported : ∀ n ∈ job.nodes, (s.host n).reported = true

theorem Sim.set (h : Sim job s p) (hplan : y.plan = some x) (hrep : y.reported = true) :
    Sim job (s.set n y) (p.set n x) := by
  refine ⟨h.sched, fun k hk => ?_, fun k hk => ?_⟩
  · rw [set_controller]
    by_cases hn : k = n
    · subst hn
      simpa [Handshake.set] using hplan
    · simpa [Handshake.set, hn] using h.plan k hk
  · by_cases hn : k = n
    · subst hn
      simpa [Handshake.set] using hrep
    · simpa [Handshake.set, hn] using h.reported k hk

/-- A change that is not seen by the control plane. -/
theorem Sim.set_same (h : Sim job s p) (hplan : y.plan = (s.host n).plan)
    (hrep : y.reported = (s.host n).reported) : Sim job (s.set n y) p := by
  refine ⟨h.sched, fun k hk => ?_, fun k hk => ?_⟩
  · by_cases hn : k = n
    · subst hn
      simpa [Handshake.set, hplan] using h.plan k hk
    · simpa [Handshake.set, hn] using h.plan k hk
  · by_cases hn : k = n
    · subst hn
      simpa [Handshake.set, hrep] using h.reported k hk
    · simpa [Handshake.set, hn] using h.reported k hk

/-- Once there is a plan controller, `Process` is what the control plane does: it ignores the
same messages. -/
theorem process_of_plan {y y' : Host K M B} (hx : y.plan = some x) {m : Mail (List B)}
    (h : y.process job n m = .ok y') :
    ∃ x', x.handle job n m = .ok x' ∧ y'.plan = some x' ∧ y'.reported = y.reported := by
  unfold Host.process at h
  split at h
  · next hig =>
    have hend : x.terminated = true := by simpa [Host.has, hx] using hig.2
    cases h
    cases m with
    | broadcast b =>
      cases b with
      | kSetup => cases hig.1
      | kTerminatePlan => exact ⟨_, rfl, by rw [← hend]; exact hx, rfl⟩
      | _ => exact ⟨x, by simp [handle, process, hend], hx, rfl⟩
    | kReceiveJoin m =>
      refine ⟨{ x with dropped := x.dropped ++ [m] }, if_pos hend, ?_, rfl⟩
      simp [Host.ignore, hx]
    | _ => exact ⟨x, by simp [handle, process, hend], hx, rfl⟩
  · split at h
    · next hsetup =>
      cases h
      cases m with
      | broadcast b =>
        cases b with
        | kSetup => exact ⟨x, rfl, by simp [Host.setup, hx], by simp [Host.setup, hx]⟩
        | _ => cases hsetup
      | _ => cases hsetup
    · simp only [Host.handle, hx] at h
      obtain ⟨x', hx', h⟩ := bind_eq_ok.mp h
      cases h
      exact ⟨x', hx', rfl, rfl⟩

/-- The controller that a message finds handles it. -/
theorem Sim.receive (h : Sim job s p) {d : Int} (hd : d ∈ job.nodes)
    (hr : s.receive job d m = .ok s') :
    ∃ x, (p.controller d).handle job d m = .ok x ∧ Sim job s' (p.set d x) := by
  obtain ⟨y, hy, hs'⟩ := bind_eq_ok.mp hr
  cases hs'
  obtain ⟨x, hx, hplan, hrep⟩ := process_of_plan (h.plan d hd) hy
  exact ⟨x, hx, h.set hplan (hrep.trans (h.reported d hd))⟩

theorem hear_eq_handle {bs : List Broadcast} {b : Broadcast} (hb : bs[x.heard]? = some b) :
    x.hear job n bs = Controller.handle job n { x with heard := x.heard + 1 } (.broadcast b) := by
  simp only [hear, hb]
  cases b <;> rfl

variable [LinearOrder K]

/-- What one step of the hosts is for the control plane. -/
def Steps (job : MapJoin K M O B) (p p' : ControlPlane K M B) : Prop :=
  p' = p ∨ ∃ a, ControlPlane.step job p a = .ok p'

theorem step_atNode {e : PlaneEvent} (hn : n ∈ job.nodes)
    (hx : ControlPlane.atNode job p.sched.broadcasts n (p.controller n) e = .ok x) (ht : e ≠ .tell)
    (hd : ∀ i, e ≠ .deliver i) : Steps job p (p.set n x) := by
  refine .inr ⟨(n, e), ?_⟩
  simp only [ControlPlane.step, if_pos hn]
  cases e with
  | tell => exact absurd rfl ht
  | deliver i => exact absurd rfl (hd i)
  | _ => rw [hx]; rfl

/-- A message arrives where the plan has been set up. -/
theorem Sim.mail (h : Sim job s p) (hn : n ∈ job.nodes) {d : Int}
    (hm : mail job s n e = some (d, m)) (hr : (s.take n e).receive job d m = .ok s') :
    ∃ p', Steps job p p' ∧ Sim job s' p' := by
  obtain ⟨ha, hd⟩ : addressed job s n e = some (d, m) ∧ d ∈ job.nodes := by
    simpa [Handshake.mail, Option.filter_eq_some_iff] using hm
  have hplan := h.plan n hn
  have hrep := h.reported n hn
  cases e with
  | ask i => cases ha
  | request f => cases ha
  | arrive i =>
    obtain ⟨f, -, hf⟩ := Option.map_eq_some_iff.mp ha
    cases hf
    have h₁ : Sim job (s.take n (.arrive i)) p := h.set_same rfl rfl
    obtain ⟨x, hx, hs'⟩ := h₁.receive hd hr
    exact ⟨_, step_atNode (e := .kFetchRequest f) hd hx (by simp) (by simp), hs'⟩
  | plane e =>
    cases e with
    | hear =>
      obtain ⟨b, hb, hf⟩ := Option.map_eq_some_iff.mp ha
      cases hf
      have h₁ : Sim job (s.take n (.plane .hear))
          (p.set n { p.controller n with heard := (p.controller n).heard + 1 }) := by
        refine h.set ?_ ?_ <;> simp [Host.hearNext, hplan, hrep]
      obtain ⟨x, hx, hs'⟩ := h₁.receive hd hr
      rw [ControlPlane.set_controller_self] at hx
      have hb' : p.sched.broadcasts[(p.controller n).heard]? = some b := by
        simpa [Host.heard, hplan, h.sched] using hb
      refine ⟨p.set n x, step_atNode (e := .hear) hn ((hear_eq_handle hb').trans hx) (by simp)
        (by simp), ?_⟩
      simpa [ControlPlane.set] using hs'
    | deliver i =>
      obtain ⟨m, hi, hf⟩ := Option.map_eq_some_iff.mp ha
      cases hf
      have h₁ : Sim job (s.take n (.plane (.deliver i)))
          (p.set n ((p.controller n).takeSent i)) := by
        refine h.set ?_ ?_ <;> simp [Host.takeSent, hplan, hrep]
      obtain ⟨x, hx, hs'⟩ := h₁.receive hd hr
      have hi' : (p.controller n).combiner.sent[i]? = some m := by
        simpa [Host.sent, hplan] using hi
      refine ⟨_, .inr ⟨(n, .deliver i), ?_⟩, hs'⟩
      simp only [ControlPlane.step, if_pos hn, ControlPlane.deliver, hi']
      exact bind_eq_ok.mpr ⟨x, hx, rfl⟩
    | process i =>
      obtain ⟨c, -, hf⟩ := Option.map_eq_some_iff.mp ha
      cases hf
      obtain ⟨x, hx, hs'⟩ := Sim.receive (s := s) h hd hr
      exact ⟨_, step_atNode (e := .process i) hn hx (by simp) (by simp), hs'⟩
    | releaseFetch i =>
      simp only [addressed] at ha
      split at ha
      · cases ha
        obtain ⟨x, hx, hs'⟩ := Sim.receive (s := s) h hd hr
        exact ⟨_, step_atNode (e := .releaseFetch i) hn hx (by simp) (by simp), hs'⟩
      · cases ha
    | _ => cases ha

theorem Sim.tell (h : Sim job s p) (hn : n ∈ job.nodes) (ht : s.tell job n = .ok s') :
    ∃ p', Steps job p p' ∧ Sim job s' p' := by
  have hplan := h.plan n hn
  have hrep := h.reported n hn
  have hnext : (s.host n).nextReport job n =
      ((p.controller n).reports job n)[(p.controller n).told]? := by
    simp [Host.nextReport, hplan, hrep]
  rw [Handshake.tell, hnext] at ht
  split at ht
  · next hr =>
    cases ht
    exact ⟨p, .inl rfl, h⟩
  · next r hr =>
    obtain ⟨sched, hs, ht⟩ := bind_eq_ok.mp ht
    cases ht
    rw [h.sched] at hs
    have h₁ : Sim job (s.set n (s.host n).takeReport)
        (p.set n { p.controller n with told := (p.controller n).told + 1 }) := by
      refine h.set ?_ ?_ <;> simp [Host.takeReport, hplan, hrep]
    refine ⟨{ p.set n { p.controller n with told := (p.controller n).told + 1 } with
      sched := sched }, .inr ⟨(n, .tell), ?_⟩, ⟨rfl, h₁.plan, h₁.reported⟩⟩
    simp only [ControlPlane.step, if_pos hn, ControlPlane.tell, hr]
    rw [hs]
    rfl

theorem Sim.act (h : Sim job s p) (hn : n ∈ job.nodes) (ha : s.act job n e = .ok s') :
    ∃ p', Steps job p p' ∧ Sim job s' p' := by
  have hstay : ∀ {e : PlaneEvent}, e ≠ .tell → (∀ i, e ≠ .deliver i) →
      (do let y ← (s.host n).act job n s.sched.broadcasts e; pure (s.set n y)) = .ok s' →
      ∃ p', Steps job p p' ∧ Sim job s' p' := by
    intro e ht hd he
    obtain ⟨y, hy, he⟩ := bind_eq_ok.mp he
    cases he
    simp only [Host.act, h.plan n hn] at hy
    obtain ⟨x, hx, hy⟩ := bind_eq_ok.mp hy
    cases hy
    exact ⟨p.set n x, step_atNode hn (h.sched ▸ hx) ht hd, h.set rfl (h.reported n hn)⟩
  cases e with
  | ask i | request f =>
    cases ha
    exact ⟨p, .inl rfl, h.set_same rfl rfl⟩
  | arrive i =>
    cases ha
    exact ⟨p, .inl rfl, h⟩
  | plane e =>
    cases e with
    | tell => exact h.tell hn ha
    | kFetchRequest f =>
      cases ha
      exact ⟨p, .inl rfl, h⟩
    | releaseFetch i =>
      cases ha
      exact ⟨p, .inl rfl, h⟩
    | deliver i =>
      -- a message that is for no node stays where it is
      obtain ⟨y, hy, ha⟩ := bind_eq_ok.mp ha
      cases ha
      simp only [Host.act, h.plan n hn, atNode] at hy
      cases hy
      refine ⟨p, .inl rfl, h.set_same ?_ rfl⟩
      rw [h.plan n hn]
    | _ => exact hstay (by simp) (by simp) ha

/-- **After the barrier** a step of the hosts is a step of the control plane, or none. -/
theorem Sim.step (h : Sim job s p) (hstep : step job s (n, e) = .ok s') :
    ∃ p', Steps job p p' ∧ Sim job s' p' := by
  simp only [Handshake.step] at hstep
  split at hstep
  · next hn =>
    split at hstep
    · next hm => exact h.mail hn hm hstep
    · exact h.act hn hstep
  · cases hstep
    exact ⟨p, .inl rfl, h⟩

end Sim

/-! ## Before the barrier -/

section Gathering

variable {job} {s s' : Handshake K M B} {n : Int} {S : Finset Int} {r : Bool}

/-- Nothing but the report of `Setup` has left the node, if it has got that far. -/
inductive Fresh (job : MapJoin K M O B) (n : Int) : Bool → Host K M B → Prop
  | idle : Fresh job n false ⟨none, 0, false, false, []⟩
  | ready (early : Nat) (reported : Bool) :
    Fresh job n reported ⟨some (Controller.init job n), early, reported, false, []⟩

/-- `S` are the nodes whose report has arrived; somebody is missing. -/
structure Gathering (job : MapJoin K M O B) (S : Finset Int) (s : Handshake K M B) : Prop where
  sched : s.sched = { ControlManager.runPlan with isSetup := S }
  sub : S ⊆ job.nodes.toFinset
  missing : S.card < job.nodes.length
  host : ∀ n, Fresh job n (decide (n ∈ S)) (s.host n)

theorem gathering_init : Gathering job ∅ (init : Handshake K M B) where
  sched := rfl
  sub := Finset.empty_subset _
  missing := by
    obtain ⟨n, hn⟩ := List.exists_mem_of_ne_nil _ job.update_ne_nil
    exact List.length_pos_of_mem (job.node_mem _ n hn)
  host _ := .idle

theorem Gathering.set (h : Gathering job S s) (hy : Fresh job n (decide (n ∈ S)) y) :
    Gathering job S (s.set n y) := by
  refine ⟨h.sched, h.sub, h.missing, fun k => ?_⟩
  by_cases hk : k = n
  · subst hk
    simpa [Handshake.set] using hy
  · simpa [Handshake.set, hk] using h.host k

theorem Fresh.quiet (h : Fresh job n r y) :
    y.sent = [] ∧ y.workQueue = [] ∧ y.requests = [] ∧ y.asked = false ∧ y.mapExecutor = [] := by
  cases h <;> exact ⟨rfl, rfl, rfl, rfl, rfl⟩

theorem Fresh.done (h : Fresh job n true y) :
    y.plan = some (Controller.init job n) ∧ y.reported = true := by
  cases h
  exact ⟨rfl, rfl⟩

theorem Gathering.broadcasts (h : Gathering job S s) : s.sched.broadcasts = [.kSetup] := by
  rw [h.sched]
  rfl

/-- The only message is `kSetup`, for a node that has not received it. -/
theorem Gathering.mail (h : Gathering job S s) {d : Int} (hm : mail job s n e = some (d, m)) :
    e = .plane .hear ∧ d = n ∧ m = .broadcast .kSetup ∧ n ∉ S ∧
      s.host n = ⟨none, 0, false, false, []⟩ := by
  obtain ⟨ha, -⟩ := Option.filter_eq_some_iff.mp hm
  obtain ⟨hsent, hqueue, hreq, hasked, -⟩ := (h.host n).quiet
  cases e with
  | ask i => cases ha
  | request f => cases ha
  | arrive i => simp [addressed, hreq] at ha
  | plane e =>
    cases e with
    | hear =>
      obtain ⟨b, hb, hf⟩ := Option.map_eq_some_iff.mp ha
      cases hf
      rw [h.broadcasts] at hb
      have hn := h.host n
      generalize s.host n = y at hn hb
      generalize hS : decide (n ∈ S) = r at hn
      cases hn with
      | idle =>
        cases hb
        exact ⟨rfl, rfl, rfl, by simpa using hS, rfl⟩
      | ready early reported => cases hb
    | deliver i => simp [addressed, hsent] at ha
    | process i => simp [addressed, hqueue] at ha
    | releaseFetch i => simp [addressed, hasked] at ha
    | _ => cases ha

/-- `kSetup` makes the node ready. -/
theorem Gathering.setup (h : Gathering job S s) (hS : n ∉ S)
    (hn : s.host n = ⟨none, 0, false, false, []⟩)
    (hr : (s.take n (.plane .hear)).receive job n (.broadcast .kSetup) = .ok s') :
    Gathering job S s' := by
  obtain ⟨y, hy, hs'⟩ := bind_eq_ok.mp hr
  cases hs'
  have hy : y = ⟨some (Controller.init job n), 1, false, false, []⟩ := by
    simp only [take, Handshake.set, Function.update_self, hn] at hy
    exact (Except.ok.inj hy).symm
  have hset : (s.take n (.plane .hear)).set n y = s.set n y := by simp [take, Handshake.set]
  rw [hset]
  refine h.set ?_
  rw [hy, decide_eq_false hS]
  exact .ready 1 false

/-- The report of `Setup` arrives: it is the last one, or somebody is still missing. -/
theorem control_setup (hsub : S ⊆ job.nodes.toFinset) (hn : n ∈ job.nodes) :
    (ControlManager.control job.plan { ControlManager.runPlan with isSetup := S }
        (ControlManager.setupMsg job.plan n) = .ok (.started job.plan) ∧
      insert n S = job.nodes.toFinset) ∨
    (ControlManager.control job.plan { ControlManager.runPlan with isSetup := S }
        (ControlManager.setupMsg job.plan n) =
          .ok { ControlManager.runPlan with isSetup := insert n S } ∧
      (insert n S).card < job.nodes.length) := by
  have hins : insert n S ⊆ job.nodes.toFinset :=
    Finset.insert_subset (List.mem_toFinset.mpr hn) hsub
  have hcard : job.nodes.toFinset.card = job.nodes.length :=
    List.toFinset_card_of_nodup job.nodes_nodup
  have hlen : job.plan.nodes.length = job.nodes.length := rfl
  by_cases hfull : (insert n S).card = job.plan.nodes.length
  · left
    have heq : insert n S = job.nodes.toFinset :=
      Finset.eq_of_subset_of_card_le hins (by omega)
    refine ⟨(if_pos hfull).trans ?_, heq⟩
    rw [ControlManager.started, ← show insert n S = job.plan.nodes.toFinset from heq]
    rfl
  · right
    have hle := Finset.card_le_card hins
    exact ⟨if_neg hfull, by omega⟩

/-- The last report ends the setup. -/
theorem Gathering.tell (h : Gathering job S s) (hn : n ∈ job.nodes)
    (ht : s.tell job n = .ok s') :
    (∃ S', Gathering job S' s') ∨
      (s'.sched = .started job.plan ∧ Sim job s' (ControlPlane.init job)) := by
  have hfresh := h.host n
  rw [Handshake.tell] at ht
  generalize hy : s.host n = y at hfresh ht
  generalize hS : decide (n ∈ S) = r at hfresh
  cases hfresh with
  | idle =>
    cases ht
    exact .inl ⟨S, h⟩
  | ready early reported =>
    cases r with
    | true =>
      -- a controller that has been set up has nothing more to report
      cases ht
      exact .inl ⟨S, h⟩
    | false =>
      obtain ⟨sched, hs, ht⟩ := bind_eq_ok.mp ht
      cases ht
      have hhost : ∀ k, Fresh job k (decide (k ∈ insert n S))
          ((s.set n ⟨some (Controller.init job n), early, true, false, []⟩).host k) := by
        intro k
        by_cases hk : k = n
        · subst hk
          simpa [Handshake.set] using Fresh.ready early true
        · simpa [Handshake.set, hk] using h.host k
      have hs := mapError_eq_ok.mp hs
      rw [h.sched] at hs
      rcases control_setup h.sub hn with ⟨hc, hall⟩ | ⟨hc, hlt⟩
      · cases Except.ok.inj (hc.symm.trans hs)
        right
        have hready : ∀ k ∈ job.nodes, Fresh job k true
            ((s.set n ⟨some (Controller.init job n), early, true, false, []⟩).host k) := by
          intro k hk
          have hmem : k ∈ insert n S := hall ▸ List.mem_toFinset.mpr hk
          exact decide_eq_true hmem ▸ hhost k
        exact ⟨rfl, rfl, fun k hk => (hready k hk).done.1, fun k hk => (hready k hk).done.2⟩
      · cases Except.ok.inj (hc.symm.trans hs)
        exact .inl ⟨insert n S, rfl,
          Finset.insert_subset (List.mem_toFinset.mpr hn) h.sub, hlt, hhost⟩

theorem atNode_init [LinearOrder K] {e : PlaneEvent} (he : e.ofFetcher = false) :
    ControlPlane.atNode job [.kSetup] n (Controller.init job n) e =
      .ok (Controller.init job n) := by
  cases e with
  | kFetchRequest f => cases he
  | releaseFetch i => cases he
  | periodicCombine =>
    simp only [atNode, DelayedCombiner.periodicCombine]
    split
    · rfl
    · rfl
  | _ => rfl

theorem Fresh.act [LinearOrder K] {y y' : Host K M B} (h : Fresh job n r y) {e : PlaneEvent}
    (he : e.ofFetcher = false) (hy : y.act job n [.kSetup] e = .ok y') : Fresh job n r y' := by
  cases h with
  | idle =>
    cases hy
    exact .idle
  | ready early reported =>
    simp only [Host.act, atNode_init he] at hy
    cases hy
    exact .ready early _

theorem Fresh.ask (h : Fresh job n r y) (i : Nat) : Fresh job n r (y.ask i) := by
  cases h with
  | idle => exact .idle
  | ready early reported => exact .ready early _

theorem Fresh.request (h : Fresh job n r y) (f : FetchReq) : Fresh job n r (y.request f) := by
  cases h with
  | idle => exact .idle
  | ready early reported => exact .ready early _

/-- The first report is that of `Setup`. -/
theorem Fresh.nextReport (h : Fresh job n r y) {c : ControllerMsg}
    (hc : y.nextReport job n = some c) : c.flag = .kSetup := by
  cases h with
  | idle => cases hc
  | ready early reported =>
    cases r with
    | true => cases hc
    | false =>
      cases Option.some.inj hc
      rfl

theorem Gathering.act [LinearOrder K] (h : Gathering job S s) (hn : n ∈ job.nodes)
    (ha : s.act job n e = .ok s') :
    (∃ S', Gathering job S' s') ∨
      (s'.sched = .started job.plan ∧ Sim job s' (ControlPlane.init job)) := by
  have hfresh := h.host n
  -- nothing moves at a node that waits
  have hstay : ∀ {e : PlaneEvent}, e.ofFetcher = false →
      (do let y ← (s.host n).act job n s.sched.broadcasts e; pure (s.set n y)) = .ok s' →
      Gathering job S s' := by
    intro e he h'
    obtain ⟨y, hy, h'⟩ := bind_eq_ok.mp h'
    cases h'
    refine h.set ?_
    rw [h.broadcasts] at hy
    exact hfresh.act he hy
  cases e with
  | ask i =>
    cases ha
    exact .inl ⟨S, h.set (hfresh.ask i)⟩
  | request f =>
    cases ha
    exact .inl ⟨S, h.set (hfresh.request f)⟩
  | arrive i =>
    cases ha
    exact .inl ⟨S, h⟩
  | plane e =>
    cases e with
    | tell => exact h.tell hn ha
    | kFetchRequest f =>
      cases ha
      exact .inl ⟨S, h⟩
    | releaseFetch i =>
      cases ha
      exact .inl ⟨S, h⟩
    | _ => exact .inl ⟨S, hstay rfl ha⟩

/-- **Up to the barrier** the nodes wait for each other. -/
theorem Gathering.step [LinearOrder K] (h : Gathering job S s) (hstep : step job s (n, e) = .ok s') :
    (∃ S', Gathering job S' s') ∨
      (s'.sched = .started job.plan ∧ Sim job s' (ControlPlane.init job)) := by
  simp only [Handshake.step] at hstep
  split at hstep
  · next hn =>
    split at hstep
    · next d m hm =>
      obtain ⟨rfl, rfl, rfl, hS, hhost⟩ := h.mail hm
      exact .inl ⟨S, h.setup hS hhost hstep⟩
    · exact h.act hn hstep
  · cases hstep
    exact .inl ⟨S, h⟩

end Gathering

/-! ## The barrier -/

section Barrier

variable {job} [LinearOrder K] {s s' : Handshake K M B} {n : Int}

/-- The plan is being set up, or it is run by the control plane. -/
inductive Phase (job : MapJoin K M O B) (s : Handshake K M B) : Prop
  | gathering (S : Finset Int) (h : Gathering job S s)
  | started (p : ControlPlane K M B) (hp : ControlPlane.Reachable job p)
    (hinit : p.sched.Initialised job.plan) (h : Sim job s p)

theorem phase_step (h : Phase job s) {a : Int × HandshakeEvent}
    (hstep : step job s a = .ok s') : Phase job s' := by
  cases h with
  | gathering S h =>
    rcases h.step hstep with ⟨S', h'⟩ | ⟨-, h'⟩
    · exact .gathering S' h'
    · exact .started _ .refl ⟨_, .refl⟩ h'
  | started p hp hinit h =>
    obtain ⟨p', rfl | ⟨b, hb⟩, h'⟩ := h.step hstep
    · exact .started _ hp hinit h'
    · refine .started p' (.tail hp trivial hb) ?_ h'
      rcases move_sched (step_move hb) with he | ⟨k, r, -, hr, -⟩
      · exact he ▸ hinit
      · exact hinit.control hr

theorem phase_reachable (hs : Reachable job s) : Phase job s :=
  Reach.induct hs (.gathering ∅ gathering_init) fun _ _ _ _ hP _ hstep => phase_step hP hstep

/-- The report that the manager receives by an event. -/
def report (job : MapJoin K M O B) (s : Handshake K M B) (n : Int) :
    HandshakeEvent → Option ControllerMsg
  | .plane .tell => (s.host n).nextReport job n
  | _ => none

/-- **The setup barrier.**  A message other than `kSetup` finds a plan controller that has been
set up, and the plan is in `plan_controllers_` unless it has been terminated there; when the
manager receives the version of a partition, `Init` has run. -/
theorem setup_barrier (job : MapJoin K M O B) (s : Handshake K M B) (hs : Reachable job s) (n : Int)
    (e : HandshakeEvent) :
    (∀ d m, mail job s n e = some (d, m) → m ≠ .broadcast .kSetup →
      (s.host d).plan.isSome ∧ ((s.host d).has = false → (s.host d).terminated = true)) ∧
    ∀ r, report job s n e = some r → r.flag = .kMap ∨ r.flag = .kJoin →
      s.sched.Initialised job.plan := by
  cases phase_reachable hs with
  | gathering S h =>
    refine ⟨fun d m hm hne => absurd (h.mail hm).2.2.1 hne, fun r hr hflag => ?_⟩
    have hsetup : r.flag = .kSetup := by
      cases e with
      | plane e =>
        cases e with
        | tell => exact (h.host n).nextReport hr
        | _ => cases hr
      | _ => cases hr
    rcases hflag with hflag | hflag <;> cases hsetup.symm.trans hflag
  | started p hp hinit h =>
    refine ⟨fun d m hm _ => ?_, fun r _ _ => h.sched ▸ hinit⟩
    have hd : d ∈ job.nodes := by
      simpa using (Option.filter_eq_some_iff.mp hm).2
    simp [Host.has, Host.terminated, h.plan d hd]

/-- Node 2 maps with a fetch from node 1, whose request is still on its way when both nodes are
done; the last version has not been reported. -/
def lateRequest : List (Int × HandshakeEvent) :=
  let plane := fun (l : List (Int × PlaneEvent)) =>
    l.map fun a => (a.1, HandshakeEvent.plane a.2)
  plane [(1, .hear), (1, .tell), (2, .hear), (2, .tell), (1, .hear), (2, .hear), (2, .beginMap 0)] ++
    [(2, .ask 0), (2, .request ⟨0, 0, 0, 1, 0, false, getFetcherQid 2, getControllerActorQid 1⟩)] ++
    plane [(1, .beginMap 0), (1, .endMap 0), (1, .process 0), (2, .endMap 0), (2, .process 0),
      (1, .deliver 0), (1, .deliver 0), (2, .deliver 0), (2, .deliver 0), (1, .execFetch 0),
      (1, .process 0), (1, .execFetch 0), (1, .process 0), (2, .execFetch 0), (2, .process 0),
      (2, .execFetch 0), (2, .process 0), (1, .tell), (1, .tell), (2, .tell)]

/-- The last report comes after `Init`; the request that comes after `kTerminatePlan` is the
one that is ignored. -/
theorem setup_barrier_lateRequest :
    (∃ s r, run (step (twoNodes 0 1 0 (-1))) init lateRequest = .ok s ∧
      report (twoNodes 0 1 0 (-1)) s 2 (.plane .tell) = some r ∧ r.flag = .kJoin ∧
      s.sched.Initialised (twoNodes 0 1 0 (-1)).plan) ∧
    ∃ s m, run (step (twoNodes 0 1 0 (-1))) init
        (lateRequest ++ [(2, .plane .tell), (1, .plane .hear)]) = .ok s ∧
      mail (twoNodes 0 1 0 (-1)) s 2 (.arrive 0) = some (1, m) ∧ m ≠ .broadcast .kSetup ∧
      (s.host 1).has = false ∧ (s.host 1).terminated = true := by
  constructor
  · have hrun : ∃ s r, run (step (twoNodes 0 1 0 (-1))) init lateRequest = .ok s ∧
        report (twoNodes 0 1 0 (-1)) s 2 (.plane .tell) = some r ∧ r.flag = .kJoin :=
      ⟨_, _, rfl, rfl, rfl⟩
    obtain ⟨s, r, hs, hr, hflag⟩ := hrun
    exact ⟨s, r, hs, hr, hflag,
      (setup_barrier _ s (reach_of_run _ hs) 2 (.plane .tell)).2 r hr (.inr hflag)⟩
  · have hrun : ∃ s m, run (step (twoNodes 0 1 0 (-1))) init
          (lateRequest ++ [(2, .plane .tell), (1, .plane .hear)]) = .ok s ∧
        mail (twoNodes 0 1 0 (-1)) s 2 (.arrive 0) = some (1, m) ∧ m ≠ .broadcast .kSetup ∧
        (s.host 1).has = false :=
      ⟨_, _, rfl, rfl, by simp, rfl⟩
    obtain ⟨s, m, hs, hm, hne, hhas⟩ := hrun
    exact ⟨s, m, hs, hm, hne, hhas,
      ((setup_barrier _ s (reach_of_run _ hs) 2 (.arrive 0)).1 1 m hm hne).2 hhas⟩

end Barrier

end Handshake

end Tangram
