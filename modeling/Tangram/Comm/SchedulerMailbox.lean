import Tangram.Base.Serialization

/-!
# Registration of workers

`SchedulerMailbox::HandleRegisterMsg`, `UpdateID` and `GetDeadNodes` (`comm/scheduler_mailbox.cpp`),
with the heartbeats they read.  The clean-up of `CheckHeartbeat` stands behind a `break`, so nothing
is ever taken out of `connected_nodes_`.

One handler serves the first registration and the one of a worker that takes over from a dead
one, and chooses by the size of `nodes_`.  That is `num_workers_` from the first registration on,
so the branch for recovery is never taken: the loop that issues the ids runs again and
stops at the node that has just been replaced (`issue_error`).
-/

namespace Tangram

open StepRun Wire List

/-- `Node::kEmpty`. -/
def kEmpty : Int := 2 ^ 31 - 1

/-- `hostname + ":" + std::to_string(port)`. -/
def Wire.Node.address (n : Node) : List UInt8 :=
  n.hostname ++ (":" ++ toString n.port).toUTF8.data.toList

/-- The `CHECK`s of `UpdateID` and `HandleRegisterMsg`. -/
inductive RegisterCheck
  | sender | ready | emptyId
deriving DecidableEq, Repr

structure SchedulerMailbox where
  nodes : List Node
  connectedNodes : List (List UInt8 × Int)
  sharedNodeMapping : Int → Option Int
  heartbeats : Int → Option Int
  startTime : Int
  ready : Bool
  /-- The variable of `Receiving`, which is not initialised. -/
  recoveryNode : Node
  /-- The `kRegister`s sent back: the receiver and the nodes. -/
  sent : List (Int × List Node)
  /-- The nodes whose `kRegister` has been handled. -/
  arrived : List Node

namespace SchedulerMailbox

def init (recoveryNode : Node) : SchedulerMailbox :=
  ⟨[], [], fun _ => none, fun _ => none, 0, false, recoveryNode, [], []⟩

def kHeartbeatTimeout : Int := 3

def getNodeIDs (s : SchedulerMailbox) : List Int := s.connectedNodes.map Prod.snd

def updateHeartbeat (s : SchedulerMailbox) (id now : Int) : SchedulerMailbox :=
  { s with heartbeats := Function.update s.heartbeats id (some now) }

def getDeadNodes (s : SchedulerMailbox) (timeout now : Int) : List Int :=
  if s.ready = false ∨ timeout = 0 then []
  else s.getNodeIDs.filter fun r =>
    (∀ t ∈ s.heartbeats r, t + timeout < now) ∧ s.startTime + timeout < now

/-- `ctrl.node` under the id of the node it replaces. -/
def recovered (node old : Node) : Node := { node with id := old.id, isRecovery := true }

def updateID (numWorkers : Nat) (s : SchedulerMailbox) (sender : Int) (node : Node)
    (dead : List Int) : Except RegisterCheck SchedulerMailbox := do
  check .sender (sender = kEmpty)
  if s.nodes.length < numWorkers then return { s with nodes := s.nodes ++ [node] }
  else
    check .ready (s.ready = true)
    -- `i < nodes_.size() - 1`: the last one is not looked at
    match s.nodes.dropLast.findIdx? (·.id ∈ dead) with
    | none => return s
    | some i =>
      match s.nodes[i]? with
      | none => return s
      | some old => return { s with
          nodes := s.nodes.set i (recovered node old)
          recoveryNode := recovered node old }

/-- The loop that issues the ids, from `id + 1` on: the nodes after it, and the mailbox. -/
def issue (now : Int) :
    List Node → Int → SchedulerMailbox → Except RegisterCheck (List Node × SchedulerMailbox)
  | [], _, s => .ok ([], s)
  | node :: rest, id, s =>
    match s.connectedNodes.lookup node.address with
    | none => do
      check .emptyId (node.id = kEmpty)
      let s := s.updateHeartbeat (id + 1) now
      let (nodes, s) ← issue now rest (id + 1)
        { s with connectedNodes := s.connectedNodes ++ [(node.address, id + 1)] }
      return ({ node with id := id + 1 } :: nodes, s)
    | some c => do
      let (nodes, s) ← issue now rest (id + 1)
        { s with sharedNodeMapping := Function.update s.sharedNodeMapping (id + 1) (some c) }
      return ({ node with id := c } :: nodes, s)

def handleRegisterMsg (numWorkers : Nat) (s : SchedulerMailbox) (sender : Int) (node : Node)
    (now : Int) : Except RegisterCheck SchedulerMailbox := do
  let s ← updateID numWorkers s sender node (s.getDeadNodes kHeartbeatTimeout now)
  if s.nodes.length = numWorkers then
    let (nodes, s) ← issue now s.nodes 0 s
    let recvers := s.getNodeIDs.filter fun r => s.sharedNodeMapping r = none
    return { s with nodes := nodes, sent := s.sent ++ recvers.map (·, nodes), ready := true }
  else if s.recoveryNode.isRecovery then
    let dead := s.getDeadNodes kHeartbeatTimeout now
    let s := s.updateHeartbeat s.recoveryNode.id now
    let recvers := s.getNodeIDs.filter fun r => r = s.recoveryNode.id ∨ r ∉ dead
    return { s with sent := s.sent ++ recvers.map fun r =>
      (r, if r = s.recoveryNode.id then s.nodes else [s.recoveryNode]) }
  else return s

inductive Event
  | register (sender : Int) (node : Node) (now : Int)
  | heartbeat (id now : Int)
  /-- `start_time_` is set, after the mailbox is ready. -/
  | started (now : Int)

def step (numWorkers : Nat) (s : SchedulerMailbox) : Event → Except RegisterCheck SchedulerMailbox
  | .register sender node now => do
    let s' ← handleRegisterMsg numWorkers s sender node now
    return { s' with arrived := s.arrived ++ [node] }
  | .heartbeat id now => .ok (s.updateHeartbeat id now)
  | .started now => .ok { s with startTime := now }

/-- What a `WorkerMailbox` sends, from an address of its own. -/
def Fresh (s : SchedulerMailbox) : Event → Prop
  | .register sender node _ =>
    sender = kEmpty ∧ node.id = kEmpty ∧ node.address ∉ s.arrived.map Node.address
  | _ => True

instance (s : SchedulerMailbox) (e : Event) : Decidable (Fresh s e) := by
  unfold Fresh
  split <;> infer_instance

/-- The nodes under the ids from `id + 1` on. -/
def numbered : Int → List Node → List Node
  | _, [] => []
  | id, n :: l => { n with id := id + 1 } :: numbered (id + 1) l

/-! ## The ids -/

def entry (n : Node) : List UInt8 × Int := (n.address, n.id)

variable {s s' : SchedulerMailbox} {now : Int} {l : List Node} {n : Node}

theorem map_address_numbered (id : Int) (l : List Node) :
    (numbered id l).map Node.address = l.map Node.address := by
  induction l generalizing id with
  | nil => rfl
  | cons n l ih => exact congrArg (n.address :: ·) (ih (id + 1))

theorem lookup_eq_none {a : List UInt8} (h : a ∉ l.map Node.address) :
    (l.map entry).lookup a = none := by
  rw [lookup_eq_none_iff]
  intro p hp
  obtain ⟨n, hn, rfl⟩ := mem_map.mp hp
  exact bne_iff_ne.mpr fun he => h (he ▸ mem_map_of_mem hn)

theorem lookup_entry (hl : (l.map Node.address).Nodup) (hn : n ∈ l) :
    (l.map entry).lookup n.address = some n.id := by
  induction l with
  | nil => exact absurd hn not_mem_nil
  | cons m l ih =>
    obtain ⟨hm, hl⟩ := nodup_cons.mp hl
    rw [map_cons, entry, lookup_cons]
    rcases mem_cons.mp hn with rfl | hn
    · rw [beq_self_eq_true]
    · have hne : n.address ≠ m.address := fun he => hm (he ▸ mem_map_of_mem hn)
      rw [beq_eq_false_iff_ne.mpr hne]
      exact ih hl hn

/-- The first time: every node gets the next id. -/
theorem issue_new (now id : Int) (hl : (l.map Node.address).Nodup)
    (hid : ∀ n ∈ l, n.id = kEmpty)
    (hnew : ∀ n ∈ l, s.connectedNodes.lookup n.address = none) :
    ∃ heartbeats, issue now l id s = .ok (numbered id l, { s with
      heartbeats := heartbeats
      connectedNodes := s.connectedNodes ++ (numbered id l).map entry }) := by
  induction l generalizing id s with
  | nil => exact ⟨s.heartbeats, by rw [issue, numbered, map_nil, append_nil]⟩
  | cons n l ih =>
    obtain ⟨hn, hl⟩ := nodup_cons.mp hl
    obtain ⟨heartbeats, hrest⟩ := ih (id + 1)
      (s := { s.updateHeartbeat (id + 1) now with
        connectedNodes := s.connectedNodes ++ [(n.address, id + 1)] }) hl
      (fun m hm => hid m (mem_cons_of_mem _ hm)) fun m hm => by
        have hne : m.address ≠ n.address := fun he => hn (he ▸ mem_map_of_mem hm)
        show (s.connectedNodes ++ _).lookup _ = none
        rw [lookup_append, hnew m (mem_cons_of_mem _ hm), lookup_cons,
          beq_eq_false_iff_ne.mpr hne]
        rfl
    refine ⟨heartbeats, ?_⟩
    rw [issue, hnew n mem_cons_self]
    dsimp only
    rw [check_pos (hid n mem_cons_self)]
    refine bind_eq_ok.mpr ⟨(), rfl, bind_eq_ok.mpr ⟨_, hrest, ?_⟩⟩
    refine congrArg Except.ok (Prod.ext rfl ?_)
    dsimp only [updateHeartbeat]
    rw [append_assoc]
    rfl

/-- Later: the nodes that are connected keep their ids, and the first other one must have none. -/
theorem issue_old (now id : Int) (hold : ∀ n ∈ l, s.connectedNodes.lookup n.address = some n.id)
    (rest : List Node) : ∃ shared id',
    issue now (l ++ rest) id s =
      (issue now rest id' { s with sharedNodeMapping := shared }).map fun r => (l ++ r.1, r.2) := by
  induction l generalizing id s with
  | nil =>
    refine ⟨s.sharedNodeMapping, id, ?_⟩
    rw [nil_append]
    show _ = (issue now rest id s).map _
    cases issue now rest id s <;> rfl
  | cons n l ih =>
    obtain ⟨shared, id', hrest⟩ := ih (id + 1)
      (s := { s with sharedNodeMapping := Function.update s.sharedNodeMapping (id + 1) (some n.id) })
      fun m hm => hold m (mem_cons_of_mem _ hm)
    refine ⟨shared, id', ?_⟩
    rw [cons_append, issue, hold n mem_cons_self]
    dsimp only
    rw [hrest]
    cases issue now rest id' _ <;> rfl

theorem issue_error {id : Int} {rest : List Node}
    (hold : ∀ n ∈ l, s.connectedNodes.lookup n.address = some n.id)
    (hnew : s.connectedNodes.lookup n.address = none) (hid : n.id ≠ kEmpty) :
    issue now (l ++ n :: rest) id s = .error .emptyId := by
  obtain ⟨shared, id', hissue⟩ := issue_old now id hold (n :: rest)
  rw [hissue, issue, hnew]
  dsimp only
  rw [show check RegisterCheck.emptyId (n.id = kEmpty) = .error .emptyId from if_neg hid]
  rfl

theorem id_of_numbered {id : Int} {i : Nat} (h : (numbered id l)[i]? = some n) : n.id = id + i + 1 := by
  induction l generalizing id i with
  | nil => cases h
  | cons m l ih =>
    cases i with
    | zero =>
      cases h
      dsimp only
      omega
    | succ i =>
      have : n.id = id + 1 + i + 1 := ih h
      omega

theorem length_numbered (id : Int) (l : List Node) : (numbered id l).length = l.length := by
  rw [← length_map Node.address, map_address_numbered, length_map]

/-! ## Runs -/

structure Registered (numWorkers : Nat) (s : SchedulerMailbox) : Prop where
  ids : ∀ n ∈ s.arrived, n.id = kEmpty
  addresses : (s.arrived.map Node.address).Nodup
  before : s.ready = false → s.nodes = s.arrived ∧ s.connectedNodes = [] ∧
    (s.arrived.length < numWorkers ∨ s.arrived = [])
  after : s.ready = true → numWorkers ≤ s.arrived.length ∧
    s.nodes = numbered 0 (s.arrived.take numWorkers) ∧ s.connectedNodes = s.nodes.map entry

variable {numWorkers : Nat} {node : Node}

theorem Registered.append (h : Registered numWorkers s)
    (hf : Fresh s (.register kEmpty node now)) :
    (∀ n ∈ s.arrived ++ [node], n.id = kEmpty) ∧
      ((s.arrived ++ [node]).map Node.address).Nodup := by
  constructor
  · intro n hn
    rcases mem_append.mp hn with hn | hn
    · exact h.ids n hn
    · exact mem_singleton.mp hn ▸ hf.2.1
  · rw [map_append, nodup_append]
    refine ⟨h.addresses, nodup_singleton _, fun a ha b hb he => hf.2.2 ?_⟩
    rw [← mem_singleton.mp hb, ← he]
    exact ha

/-- A `kRegister` while there is room: the last one issues the ids. -/
theorem Registered.handle_first (h : Registered numWorkers s) (hr : s.ready = false)
    (hf : Fresh s (.register kEmpty node now)) (hroom : s.arrived.length < numWorkers) :
    ∃ s', handleRegisterMsg numWorkers s kEmpty node now = .ok s' ∧
      Registered numWorkers { s' with arrived := s.arrived ++ [node] } := by
  obtain ⟨hnodes, hconn, -⟩ := h.before hr
  obtain ⟨hids, haddr⟩ := h.append hf
  have hupdate : updateID numWorkers s kEmpty node (s.getDeadNodes kHeartbeatTimeout now) =
      .ok { s with nodes := s.arrived ++ [node] } := by
    rw [updateID, check_pos rfl, hnodes]
    exact if_pos hroom
  rw [handleRegisterMsg, hupdate]
  by_cases hlast : (s.arrived ++ [node]).length = numWorkers
  · obtain ⟨heartbeats, hissue⟩ := issue_new now 0
      (s := { s with nodes := s.arrived ++ [node] }) haddr hids fun n _ => by
        show s.connectedNodes.lookup _ = none
        rw [hconn]
        rfl
    refine ⟨_, bind_eq_ok.mpr ⟨_, rfl, (if_pos hlast).trans (bind_eq_ok.mpr ⟨_, hissue, rfl⟩)⟩,
      hids, haddr, nofun, fun _ => ⟨Nat.le_of_eq hlast.symm, ?_, ?_⟩⟩
    · show _ = numbered 0 ((s.arrived ++ [node]).take numWorkers)
      rw [← hlast, take_length]
    · show s.connectedNodes ++ _ = _
      rw [hconn]
      rfl
  · have hlen : (s.arrived ++ [node]).length < numWorkers := by
      rw [length_append, length_singleton] at hlast ⊢
      omega
    have hstill : ∀ s' : SchedulerMailbox, s'.nodes = s.arrived ++ [node] → s'.ready = false →
        s'.connectedNodes = [] → Registered numWorkers { s' with arrived := s.arrived ++ [node] } :=
      fun s' hn hr' hc => ⟨hids, haddr, fun _ => ⟨hn, hc, .inl hlen⟩, fun h => by
        rw [hr'] at h
        cases h⟩
    by_cases hrec : s.recoveryNode.isRecovery = true
    · exact ⟨_, bind_eq_ok.mpr ⟨_, rfl, (if_neg hlast).trans (if_pos hrec)⟩, hstill _ rfl hr hconn⟩
    · exact ⟨_, bind_eq_ok.mpr ⟨_, rfl, (if_neg hlast).trans (if_neg hrec)⟩, hstill _ rfl hr hconn⟩

section Ready

variable (h : Registered numWorkers s) (hr : s.ready = true)
include h hr

theorem Registered.mem_address (hn : n ∈ s.nodes) : n.address ∈ s.arrived.map Node.address := by
  have hmem := mem_map_of_mem (f := Node.address) hn
  rw [(h.after hr).2.1, map_address_numbered] at hmem
  exact ((take_sublist _ _).map _).subset hmem

theorem Registered.lookup (hn : n ∈ s.nodes) : s.connectedNodes.lookup n.address = some n.id := by
  obtain ⟨-, hnodes, hconn⟩ := h.after hr
  rw [hconn]
  refine lookup_entry ?_ hn
  rw [hnodes, map_address_numbered]
  exact h.addresses.sublist ((take_sublist _ _).map _)

/-- A `kRegister` once the mailbox is ready: nothing is replaced, or a check fails. -/
theorem Registered.handle_ready (hn : numWorkers < 2 ^ 31)
    (hf : Fresh s (.register kEmpty node now)) :
    (∃ s', handleRegisterMsg numWorkers s kEmpty node now = .ok s' ∧ s'.nodes = s.nodes ∧
      s'.connectedNodes = s.connectedNodes ∧ s'.ready = true) ∨
    handleRegisterMsg numWorkers s kEmpty node now = .error .emptyId := by
  obtain ⟨hle, hnodes, hconn⟩ := h.after hr
  have hlen : s.nodes.length = numWorkers := by
    rw [hnodes, length_numbered, length_take, Nat.min_eq_left hle]
  have hnew : s.connectedNodes.lookup node.address = none := by
    rw [hconn]
    refine lookup_eq_none fun ha => ?_
    obtain ⟨m, hm, heq⟩ := mem_map.mp ha
    exact hf.2.2 (heq ▸ h.mem_address hr hm)
  rw [handleRegisterMsg, updateID, check_pos rfl]
  dsimp only
  rw [if_neg (by omega), check_pos hr]
  cases hfind : s.nodes.dropLast.findIdx?
      (·.id ∈ s.getDeadNodes kHeartbeatTimeout now) with
  | none =>
    obtain ⟨shared, id', hissue⟩ := issue_old now 0
      (fun n hn => h.lookup hr hn) []
    rw [append_nil] at hissue
    exact .inl ⟨_, bind_eq_ok.mpr ⟨s, rfl, (if_pos hlen).trans
      (bind_eq_ok.mpr ⟨_, hissue, rfl⟩)⟩, append_nil _, rfl, rfl⟩
  | some i =>
    -- the new address is not connected, and the node under it has an id
    obtain ⟨hi, -⟩ := findIdx?_eq_some_iff_getElem.mp hfind
    rw [length_dropLast] at hi
    obtain ⟨old, hget⟩ : ∃ old, s.nodes[i]? = some old :=
      ⟨_, getElem?_eq_getElem (Nat.lt_of_lt_of_le hi (Nat.sub_le _ _))⟩
    have hid : old.id = 0 + i + 1 := id_of_numbered (hnodes ▸ hget)
    refine .inr (bind_eq_error.mpr (.inr ⟨{ s with
      nodes := s.nodes.set i (recovered node old), recoveryNode := recovered node old }, ?_, ?_⟩))
    · show (match s.nodes[i]? with | none => _ | some old => _) = _
      rw [hget]
      rfl
    · refine (if_pos (length_set.trans hlen)).trans (bind_eq_error.mpr (.inl ?_))
      dsimp only
      rw [set_eq_take_append_cons_drop, if_pos (by omega)]
      refine issue_error (fun n hn => h.lookup hr (mem_of_mem_take hn)) hnew ?_
      show old.id ≠ kEmpty
      unfold kEmpty
      omega

end Ready

theorem registered_step {e : Event} (h : Registered numWorkers s) (hn : numWorkers < 2 ^ 31)
    (hf : Fresh s e) (hstep : step numWorkers s e = .ok s') : Registered numWorkers s' := by
  cases e with
  | heartbeat id now | started now =>
    cases hstep
    exact ⟨h.ids, h.addresses, h.before, h.after⟩
  | register sender node now =>
    obtain ⟨t, ht, heq⟩ := bind_eq_ok.mp hstep
    cases heq
    obtain rfl : sender = kEmpty := hf.1
    cases hr : s.ready with
    | false =>
      by_cases hroom : s.arrived.length < numWorkers
      · obtain ⟨t', ht', hreg⟩ := h.handle_first hr hf hroom
        cases ht.symm.trans ht'
        exact hreg
      · -- without workers there is nothing to register
        rw [handleRegisterMsg, updateID, (h.before hr).1, check_pos rfl] at ht
        obtain ⟨_, hup, -⟩ := bind_eq_ok.mp ht
        obtain ⟨_, hready, -⟩ := bind_eq_ok.mp ((if_neg hroom).symm.trans hup)
        rw [check_eq_ok, hr] at hready
        cases hready
    | true =>
      obtain ⟨hids, haddr⟩ := h.append hf
      obtain ⟨hle, hnodes, hconn⟩ := h.after hr
      rcases h.handle_ready hr hn hf with ⟨t', ht', hn', hc', hr'⟩ | herr
      · cases ht.symm.trans ht'
        refine ⟨hids, haddr, fun h0 => absurd (hr'.symm.trans h0) (by decide), fun _ => ⟨?_, ?_, ?_⟩⟩
        · exact Nat.le_trans hle (length_append ▸ Nat.le_add_right _ _)
        · show t.nodes = numbered 0 ((s.arrived ++ [node]).take numWorkers)
          rw [hn', take_append_of_le_length hle]
          exact hnodes
        · show t.connectedNodes = t.nodes.map entry
          rw [hc', hn']
          exact hconn
      · cases ht.symm.trans herr

/-- A `kRegister` that finds a dead node takes its place, and nothing else changes. -/
def Replaces (numWorkers : Nat) (s : SchedulerMailbox) (node : Node) (now : Int) : Prop :=
  (∃ n ∈ s.nodes, n.id ∈ s.getDeadNodes kHeartbeatTimeout now) →
    ∃ i old new s', s.nodes[i]? = some old ∧ old.id ∈ s.getDeadNodes kHeartbeatTimeout now ∧
      handleRegisterMsg numWorkers s kEmpty node now = .ok s' ∧ new.id = old.id ∧
      new.address = node.address ∧ s'.nodes = s.nodes.set i new

theorem Registered.replaces_iff (h : Registered numWorkers s) (hn : numWorkers < 2 ^ 31)
    (hr : s.ready = true) (hf : Fresh s (.register kEmpty node now)) :
    Replaces numWorkers s node now ↔
      ∀ n ∈ s.nodes, n.id ∉ s.getDeadNodes kHeartbeatTimeout now := by
  constructor
  · intro hrep n hmem hdead
    obtain ⟨i, old, new, s', hi, -, hok, -, haddr, hset⟩ := hrep ⟨n, hmem, hdead⟩
    rcases h.handle_ready hr hn hf with ⟨t, ht, hnodes, -⟩ | herr
    · -- nothing was replaced, so the new node was there before
      cases hok.symm.trans ht
      have hnew : new ∈ s.nodes := by
        rw [← hnodes, hset]
        exact mem_set (List.getElem?_eq_some_iff.mp hi).1 new
      exact hf.2.2 (haddr ▸ h.mem_address hr hnew)
    · cases hok.symm.trans herr
  · exact fun hall ⟨n, hmem, hdead⟩ => absurd hdead (hall n hmem)

/-- **Registration.**  In every run: the first workers are taken in, and have the ids from 1 on in
the order in which they arrived.  A `kRegister` that comes later takes the place of a dead node
exactly when there is none. -/
theorem registration (numWorkers : Nat) (hn : numWorkers < 2 ^ 31) (recoveryNode : Node)
    (s : SchedulerMailbox) (hs : Reach (step numWorkers) Fresh (init recoveryNode) s) :
    (numWorkers ≤ s.arrived.length → s.nodes = numbered 0 (s.arrived.take numWorkers)) ∧
    (∀ node now, Fresh s (.register kEmpty node now) → s.arrived.length < numWorkers →
      ∃ s', step numWorkers s (.register kEmpty node now) = .ok s') ∧
    ∀ node now, Fresh s (.register kEmpty node now) → s.ready = true →
      (Replaces numWorkers s node now ↔
        ∀ n ∈ s.nodes, n.id ∉ s.getDeadNodes kHeartbeatTimeout now) := by
  have h : Registered numWorkers s :=
    hs.induct (P := Registered numWorkers) ⟨nofun, .nil, fun _ => ⟨rfl, rfl, .inr rfl⟩, nofun⟩
      fun _ _ _ _ h hf hstep => registered_step h hn hf hstep
  refine ⟨fun hle => ?_, fun node now hf hroom => ?_, fun node now hf hr => h.replaces_iff hn hr hf⟩
  · cases hr : s.ready with
    | false =>
      obtain ⟨hnodes, -, hlt | hnil⟩ := h.before hr
      · exact absurd hle (Nat.not_le.mpr hlt)
      · rw [hnodes, hnil, take_nil]
        rfl
    | true => exact (h.after hr).2.1
  · have hr : s.ready = false := by
      cases hr : s.ready with
      | false => rfl
      | true => exact absurd (h.after hr).1 (Nat.not_le.mpr hroom)
    obtain ⟨s', hok, -⟩ := h.handle_first hr hf hroom
    exact ⟨_, bind_eq_ok.mpr ⟨s', hok, rfl⟩⟩

def worker (port : Int) : Node := ⟨kEmpty, [104], port, false⟩

/-- Two workers, and the time at which the mailbox has started. -/
def twoWorkers : List Event :=
  [.register kEmpty (worker 1) 0, .register kEmpty (worker 2) 0, .started 0]

theorem registration_two :
    ∃ s, run (step 2) (init (worker 0)) twoWorkers = .ok s ∧
      s.nodes = [{ worker 1 with id := 1 }, { worker 2 with id := 2 }] :=
  ⟨_, rfl, (registration 2 (by decide) (worker 0) _
    (reach_of_run_ok twoWorkers (by decide +kernel) rfl)).1 (by decide)⟩

/-- A third worker finds both dead, and a check fails.  With only the last one dead it does not
take its place. -/
theorem dead_not_replaced :
    ∃ s t s', Reach (step 2) Fresh (init (worker 0)) s ∧ step 2 s (.heartbeat 1 9) = .ok t ∧
      s.getDeadNodes kHeartbeatTimeout 9 = [1, 2] ∧ t.getDeadNodes kHeartbeatTimeout 9 = [2] ∧
      handleRegisterMsg 2 s kEmpty (worker 3) 9 = .error .emptyId ∧
      handleRegisterMsg 2 t kEmpty (worker 3) 9 = .ok s' ∧ s'.nodes = t.nodes :=
  ⟨_, _, _, reach_of_run_ok twoWorkers (by decide +kernel) rfl, rfl, by decide +kernel,
    by decide +kernel, rfl, rfl, rfl⟩

end SchedulerMailbox

end Tangram
