import Tangram.Lib.Bag
import Tangram.Lib.OrdMap
import Tangram.Lib.Run

/-!
# Recovering collections after a failure

`RecoverManager`, `CheckpointLoader` and `CollectionManager` of the scheduler
(`core/scheduler/recover_manager.cpp`, `checkpoint_loader.cpp`,
`collection_manager.cpp`).  `Recover` moves the partitions of the dead nodes to
live ones, has checkpoints loaded (of all partitions of what is written, of the
lost partitions of what is read) and sends the new maps to all nodes.  Both
managers count the answers for a collection and then call back.

`Pending` ties the counters to the commands that are not answered yet.  A
collection for which no partition is to be loaded is never called back for; where
there is none such, the recovery is done when the last command is answered.
-/

namespace Tangram

open StepRun List Function OrdSet

/-! ## State -/

inductive RecoverType
  | loadCheckpoint | updateCollectionMap
deriving DecidableEq, Repr

/-- What the managers call when a collection is done; `other` is the callback of another user. -/
inductive Callback
  | recoverDone (cid : Int) (type : RecoverType)
  | other
deriving DecidableEq, Repr

/-- A command to a worker that is not answered yet. -/
inductive Command
  | kLoadCheckpoint (cid partId nodeId : Int) (url : String)
  | kUpdateCollection (cid nodeId : Int)
deriving DecidableEq, Repr

inductive RecoverCheck
  | recoverStarted
  | collectionMapGet
  | partialPart
  | loaderCallback | managerCallback
  | doneStarted | doneRecovering | doneUpdating | doneCallback
deriving DecidableEq, Repr

structure CheckpointLoader where
  replyCount : Int → Nat
  expected : Int → Nat
  callbacks : Int → Option Callback

structure CollectionManager where
  receivedReplies : Int → OrdSet Int
  callbacks : Int → Option Callback

/-- The recover manager with the managers it uses.  `invoked` counts the calls of `callback_`,
and `commands` are the messages to workers that are not answered. -/
structure RecoverManager where
  nodes : OrdSet Int
  collectionMap : Int → Option (List Int)
  loader : CheckpointLoader
  manager : CollectionManager
  started : Bool
  callback : Bool
  recovering : OrdSet Int
  updating : OrdSet Int
  invoked : Nat
  commands : List Command

namespace RecoverManager

/-! ## Handlers -/

/-- `callbacks_.insert({cid, f})`: an entry that is there stays. -/
def insertCallback (callbacks : Int → Option Callback) (cid : Int) (f : Callback) :
    Int → Option Callback :=
  if (callbacks cid).isSome then callbacks else Function.update callbacks cid (some f)

def getMap (s : RecoverManager) (cid : Int) : Except RecoverCheck (List Int) :=
  match s.collectionMap cid with
  | none => .error .collectionMapGet
  | some partToNode => .ok partToNode

/-- The partitions of dead nodes go to the live nodes in turn; `i` is the partition, `it` the
place in the live nodes. -/
def replaceDead (dead : OrdSet Int) (live : List Int) : List Int → Int → Nat → List Int × List Int
  | [], _, _ => ([], [])
  | n :: rest, i, it =>
    if n ∈ dead then
      let r := replaceDead dead live rest (i + 1) (if it + 1 = live.length then 0 else it + 1)
      (live.getD it 0 :: r.1, i :: r.2)
    else
      let r := replaceDead dead live rest (i + 1) it
      (n :: r.1, r.2)

def replaceDeadnodesAndReturnUpdated (s : RecoverManager) (cid : Int) (dead : OrdSet Int) :
    Except RecoverCheck (List Int × RecoverManager) := do
  let partToNode ← s.getMap cid
  let r := replaceDead dead s.nodes.elems partToNode 0 0
  return (r.2, { s with collectionMap := Function.update s.collectionMap cid (some r.1) })

/-- The counters and the callback of a load of `k` partitions. -/
def expect (s : RecoverManager) (cid : Int) (k : Nat) : RecoverManager :=
  { s with
    loader :=
      { replyCount := Function.update s.loader.replyCount cid 0
        expected := Function.update s.loader.expected cid k
        callbacks := insertCallback s.loader.callbacks cid (.recoverDone cid .loadCheckpoint) } }

def sendLoadCommand (s : RecoverManager) (cid partId nodeId : Int) (url : String) :
    RecoverManager :=
  { s with commands := s.commands ++ [.kLoadCheckpoint cid partId nodeId url] }

def loadCheckpoint (s : RecoverManager) (cid : Int) (url : String) :
    Except RecoverCheck RecoverManager := do
  let partToNode ← s.getMap cid
  return (List.range partToNode.length).foldl
    (fun s (i : Nat) => s.sendLoadCommand cid i (partToNode.getD i 0) url) (s.expect cid partToNode.length)

def loadPart (cid : Int) (url : String) (partToNode : List Int) (s : RecoverManager)
    (partId : Int) : Except RecoverCheck RecoverManager := do
  check .partialPart (partId < partToNode.length)
  return s.sendLoadCommand cid partId (partToNode.getD partId.toNat 0) url

def loadCheckpointPartial (s : RecoverManager) (cid : Int) (url : String) (parts : List Int) :
    Except RecoverCheck RecoverManager := do
  let partToNode ← s.getMap cid
  parts.foldlM (loadPart cid url partToNode) (s.expect cid parts.length)

/-- One of the two things a collection waits for is done. -/
def eraseDone (s : RecoverManager) (cid : Int) :
    RecoverType → Except RecoverCheck RecoverManager
  | .loadCheckpoint => do
    check .doneRecovering (cid ∈ s.recovering)
    return { s with recovering := s.recovering.erase cid }
  | .updateCollectionMap => do
    check .doneUpdating (cid ∈ s.updating)
    return { s with updating := s.updating.erase cid }

/-- `RecoverDoneForACollection`. -/
def recoverDone (s : RecoverManager) (cid : Int) (type : RecoverType) :
    Except RecoverCheck RecoverManager := do
  check .doneStarted (s.started = true)
  let s ← s.eraseDone cid type
  if s.recovering.elems = [] ∧ s.updating.elems = [] then
    check .doneCallback (s.callback = true)
    return { s with started := false, invoked := s.invoked + 1, callback := false }
  else return s

def call (s : RecoverManager) : Callback → Except RecoverCheck RecoverManager
  | .recoverDone cid type => s.recoverDone cid type
  | .other => .ok s

def finishLoadCheckpoint (s : RecoverManager) (cid : Int) : Except RecoverCheck RecoverManager :=
  let s := { s with loader := { s.loader with
    replyCount := Function.update s.loader.replyCount cid (s.loader.replyCount cid + 1) } }
  if s.loader.replyCount cid = s.loader.expected cid then
    match s.loader.callbacks cid with
    | none => .error .loaderCallback
    | some f => do
      let s ← s.call f
      return { s with loader := { s.loader with
        callbacks := Function.update s.loader.callbacks cid none } }
  else .ok s

/-- `CollectionManager::Update`. -/
def update (s : RecoverManager) (cid : Int) : RecoverManager :=
  { s with
    manager :=
      { receivedReplies := Function.update s.manager.receivedReplies cid .empty
        callbacks := insertCallback s.manager.callbacks cid (.recoverDone cid .updateCollectionMap) }
    commands := s.commands ++ s.nodes.elems.map fun n => .kUpdateCollection cid n }

def finishUpdate (s : RecoverManager) (cid nodeId : Int) : Except RecoverCheck RecoverManager :=
  let received := (s.manager.receivedReplies cid).insert nodeId
  if received.elems.length = s.nodes.elems.length then
    let s := { s with manager := { s.manager with
      receivedReplies := Function.update s.manager.receivedReplies cid .empty } }
    match s.manager.callbacks cid with
    | none => .error .managerCallback
    | some f => do
      let s ← s.call f
      return { s with manager := { s.manager with
        callbacks := Function.update s.manager.callbacks cid none } }
  else .ok { s with manager := { s.manager with
    receivedReplies := Function.update s.manager.receivedReplies cid received } }

/-! ## `Recover` -/

def recoverWrite (dead : OrdSet Int) (s : RecoverManager) (w : Int × String) :
    Except RecoverCheck RecoverManager := do
  let s := { s with recovering := s.recovering.insert w.1 }
  let (_, s) ← s.replaceDeadnodesAndReturnUpdated w.1 dead
  s.loadCheckpoint w.1 w.2

def recoverRead (dead : OrdSet Int) (s : RecoverManager) (r : Int × String) :
    Except RecoverCheck RecoverManager := do
  let s := { s with recovering := s.recovering.insert r.1 }
  let (updates, s) ← s.replaceDeadnodesAndReturnUpdated r.1 dead
  s.loadCheckpointPartial r.1 r.2 updates

def updateMap (s : RecoverManager) (c : Int × String) : RecoverManager :=
  { s with updating := s.updating.insert c.1 }.update c.1

def recover (s : RecoverManager) (dead : OrdSet Int) (writes reads : List (Int × String)) :
    Except RecoverCheck RecoverManager := do
  check .recoverStarted (s.started = false)
  let s := { s with started := true, callback := true, recovering := .empty, updating := .empty }
  let s ← writes.foldlM (recoverWrite dead) s
  let s ← reads.foldlM (recoverRead dead) s
  return reads.foldl updateMap (writes.foldl updateMap s)

/-- The answer to the `i`-th command arrives. -/
def answer (s : RecoverManager) (i : Nat) : Except RecoverCheck RecoverManager :=
  match s.commands[i]? with
  | none => .ok s
  | some (.kLoadCheckpoint cid _ _ _) =>
    { s with commands := s.commands.eraseIdx i }.finishLoadCheckpoint cid
  | some (.kUpdateCollection cid n) =>
    { s with commands := s.commands.eraseIdx i }.finishUpdate cid n

/-- The states while the commands of `s` are answered, in any order. -/
def Reachable (s t : RecoverManager) : Prop := Reach answer (fun _ _ => True) s t

/-! ## Commands and counters -/

/-- The command loads a partition of `c`. -/
def isLoad (c : Int) : Command → Bool
  | .kLoadCheckpoint cid _ _ _ => cid = c
  | .kUpdateCollection _ _ => false

/-- The node that is sent the map of `c`. -/
def updateNode (c : Int) : Command → Option Int
  | .kLoadCheckpoint _ _ _ _ => none
  | .kUpdateCollection cid n => if cid = c then some n else none

def loads (s : RecoverManager) (c : Int) : Nat := s.commands.countP (isLoad c)

def updateNodes (s : RecoverManager) (c : Int) : List Int := s.commands.filterMap (updateNode c)

/-- The checkpoint of `c` is waited for as long as commands load partitions of it, and the
counters say how many answers are missing. -/
structure Loading (s : RecoverManager) (c : Int) : Prop where
  load : c ∈ s.recovering ↔ 0 < s.loads c
  loadCount : c ∈ s.recovering → s.loader.replyCount c + s.loads c = s.loader.expected c
  loadCall : c ∈ s.recovering → s.loader.callbacks c = some (.recoverDone c .loadCheckpoint)

/-- The map of `c` is waited for as long as there are nodes that have not answered. -/
structure Updating (s : RecoverManager) (c : Int) : Prop where
  update : c ∈ s.updating ↔ s.updateNodes c ≠ []
  updateCount : c ∈ s.updating → (s.manager.receivedReplies c).elems.length +
    (s.updateNodes c).length = s.nodes.elems.length
  updateCall : c ∈ s.updating → s.manager.callbacks c = some (.recoverDone c .updateCollectionMap)
  nodup : (s.updateNodes c).Nodup
  fresh : ∀ n ∈ s.updateNodes c, n ∉ s.manager.receivedReplies c

structure Pending (s : RecoverManager) (c : Int) : Prop extends Loading s c, Updating s c

/-- The state of a recovery that started when the callback had been called `n` times. -/
structure Inv (n : Nat) (s : RecoverManager) : Prop where
  pending : ∀ c, Pending s c
  started : s.started = true ↔ s.commands ≠ []
  callback : s.callback = s.started
  invoked : s.invoked = if s.started then n else n + 1

variable {s s' : RecoverManager} {c : Int} {partToNode : List Int} {k n i : Nat} {x : Command}
  (dead : OrdSet Int)

theorem Loading.congr (h : Loading s c) (hr : c ∈ s'.recovering ↔ c ∈ s.recovering)
    (hl : s'.loads c = s.loads c) (hcount : s'.loader.replyCount c = s.loader.replyCount c)
    (hexp : s'.loader.expected c = s.loader.expected c)
    (hcall : s'.loader.callbacks c = s.loader.callbacks c) : Loading s' c := by
  constructor
  · rw [hr, hl]
    exact h.load
  · rw [hr, hl, hcount, hexp]
    exact h.loadCount
  · rw [hr, hcall]
    exact h.loadCall

theorem Updating.congr (h : Updating s c) (hu : c ∈ s'.updating ↔ c ∈ s.updating)
    (hn : (s'.updateNodes c).Perm (s.updateNodes c)) (hnodes : s'.nodes = s.nodes)
    (hrec : s'.manager.receivedReplies c = s.manager.receivedReplies c)
    (hcall : s'.manager.callbacks c = s.manager.callbacks c) : Updating s' c := by
  constructor
  · rw [hu, h.update, ← length_pos_iff, ← length_pos_iff, hn.length_eq]
  · rw [hu, hrec, hn.length_eq, hnodes]
    exact h.updateCount
  · rw [hu, hcall]
    exact h.updateCall
  · exact hn.nodup_iff.mpr h.nodup
  · intro n hmem
    rw [hrec]
    exact h.fresh n (hn.mem_iff.mp hmem)

theorem commands_eq_nil (h : ∀ c, Pending s c) :
    s.recovering.elems = [] ∧ s.updating.elems = [] ↔ s.commands = [] := by
  constructor
  · rintro ⟨hr, hu⟩
    have hload : ∀ c, s.loads c = 0 := fun c => by
      have := mt (h c).load.mpr (by rw [mem_def, hr]; exact not_mem_nil)
      omega
    have hupd : ∀ c, s.updateNodes c = [] := fun c => by
      by_contra hne
      have := (h c).update.mpr hne
      rw [mem_def, hu] at this
      exact not_mem_nil this
    refine eq_nil_iff_forall_not_mem.mpr fun x hx => ?_
    cases x with
    | kLoadCheckpoint c p n u =>
      exact countP_eq_zero.mp (hload c) _ hx (by simp [isLoad])
    | kUpdateCollection c n =>
      have hmem : n ∈ s.updateNodes c :=
        mem_filterMap.mpr ⟨_, hx, by simp [updateNode]⟩
      rw [hupd c] at hmem
      exact not_mem_nil hmem
  · intro hnil
    constructor
    · refine eq_nil_iff_forall_not_mem.mpr fun c hc => ?_
      have := (h c).load.mp hc
      simp [loads, hnil] at this
    · refine eq_nil_iff_forall_not_mem.mpr fun c hc => ?_
      have := (h c).update.mp hc
      simp [updateNodes, hnil] at this

/-! ### `Recover` sends the commands -/

theorem replaceDead_length (live l : List Int) (i : Int) (it : Nat) :
    (replaceDead dead live l i it).1.length = l.length := by
  induction l generalizing i it with
  | nil => rfl
  | cons n l ih =>
    unfold replaceDead
    split <;> simp [ih]

theorem replaceDead_updates (live l : List Int) (i : Int) (it : Nat) :
    (∀ p ∈ (replaceDead dead live l i it).2, p < i + l.length) ∧
      ((replaceDead dead live l i it).2 ≠ [] ↔ ∃ n ∈ l, n ∈ dead) := by
  induction l generalizing i it with
  | nil => simp [replaceDead]
  | cons n l ih =>
    unfold replaceDead
    split
    · next hn =>
      obtain ⟨hlt, -⟩ := ih (i + 1) (if it + 1 = live.length then 0 else it + 1)
      refine ⟨fun p hp => ?_, by simp [hn]⟩
      rcases mem_cons.mp hp with rfl | hp
      · rw [length_cons]
        omega
      · have := hlt p hp
        simp only [length_cons]
        omega
    · next hn =>
      obtain ⟨hlt, hne⟩ := ih (i + 1) it
      refine ⟨fun p hp => ?_, by simp [hne, hn]⟩
      have := hlt p hp
      simp only [length_cons]
      omega

/-- `s'` is `s` after a load of `k` partitions of `c` was started. -/
structure Loads (c : Int) (k : Nat) (s s' : RecoverManager) : Prop where
  nodes : s'.nodes = s.nodes
  manager : s'.manager = s.manager
  updating : s'.updating = s.updating
  started : s'.started = s.started ∧ s'.callback = s.callback ∧ s'.invoked = s.invoked
  recovering : s'.recovering = s.recovering.insert c
  loader : s'.loader =
    ⟨Function.update s.loader.replyCount c 0, Function.update s.loader.expected c k,
      insertCallback s.loader.callbacks c (.recoverDone c .loadCheckpoint)⟩
  commands : ∃ cmds, s'.commands = s.commands ++ cmds ∧ cmds.length = k ∧
    ∀ x ∈ cmds, ∃ p n url, x = .kLoadCheckpoint c p n url
  others : ∀ c', c' ≠ c → s'.collectionMap c' = s.collectionMap c'

/-- Commands are appended and nothing else changes. -/
theorem foldl_sendLoad {α : Type} (cid : Int) (url : String) (p n : α → Int) (l : List α)
    (s : RecoverManager) :
    l.foldl (fun s i => s.sendLoadCommand cid (p i) (n i) url) s =
      { s with commands := s.commands ++ l.map fun i => .kLoadCheckpoint cid (p i) (n i) url } := by
  induction l generalizing s with
  | nil => simp
  | cons a l ih =>
    rw [foldl_cons, ih]
    simp [sendLoadCommand]

/-- `s` with the new map of `c`, waiting for it. -/
def replaced (s : RecoverManager) (c : Int) (partToNode : List Int) : RecoverManager :=
  { s with
    recovering := s.recovering.insert c
    collectionMap := Function.update s.collectionMap c (some partToNode) }

theorem loads_replaced (partToNode : List Int) (cmds : List Command) (hlen : cmds.length = k)
    (hc : ∀ x ∈ cmds, ∃ p n url, x = .kLoadCheckpoint c p n url) :
    Loads c k s { (s.replaced c partToNode).expect c k with commands := s.commands ++ cmds } :=
  ⟨rfl, rfl, rfl, ⟨rfl, rfl, rfl⟩, rfl, rfl, ⟨cmds, rfl, hlen, hc⟩,
    fun _ hc' => update_of_ne hc' _ _⟩

theorem replaceDeadnodes_ok {dead : OrdSet Int} (hm : s.collectionMap c = some partToNode) :
    { s with recovering := s.recovering.insert c }.replaceDeadnodesAndReturnUpdated c dead =
      .ok ((replaceDead dead s.nodes.elems partToNode 0 0).2,
        s.replaced c (replaceDead dead s.nodes.elems partToNode 0 0).1) := by
  unfold replaceDeadnodesAndReturnUpdated getMap
  simp only [hm]
  rfl

theorem getMap_replaced (partToNode : List Int) :
    (s.replaced c partToNode).getMap c = .ok partToNode := by
  simp [getMap, replaced]

theorem recoverWrite_loads {w : Int × String} (hm : s.collectionMap w.1 = some partToNode) :
    ∃ s', recoverWrite dead s w = .ok s' ∧ Loads w.1 partToNode.length s s' := by
  refine ⟨_, ?_, loads_replaced (replaceDead dead s.nodes.elems partToNode 0 0).1
    ((List.range partToNode.length).map fun (i : Nat) => .kLoadCheckpoint w.1 i
      ((replaceDead dead s.nodes.elems partToNode 0 0).1.getD i 0) w.2) (by simp) (by simp)⟩
  simp only [recoverWrite, replaceDeadnodes_ok hm, Bind.bind, Except.bind]
  simp only [loadCheckpoint, getMap_replaced, Bind.bind, Except.bind, replaceDead_length,
    foldl_sendLoad]
  rfl

theorem foldlM_loadPart {cid : Int} {url : String} (l : List Int)
    (hl : ∀ p ∈ l, p < partToNode.length) (s : RecoverManager) :
    l.foldlM (loadPart cid url partToNode) s = .ok (l.foldl
      (fun s p => s.sendLoadCommand cid p (partToNode.getD p.toNat 0) url) s) := by
  induction l generalizing s with
  | nil => rfl
  | cons a l ih =>
    have hstep : loadPart cid url partToNode s a =
        .ok (s.sendLoadCommand cid a (partToNode.getD a.toNat 0) url) := by
      unfold loadPart
      rw [check_pos (hl a mem_cons_self)]
      rfl
    rw [foldlM_cons, hstep]
    exact ih (fun p hp => hl p (mem_cons_of_mem _ hp)) _

theorem recoverRead_loads {r : Int × String} (hm : s.collectionMap r.1 = some partToNode) :
    ∃ s', recoverRead dead s r = .ok s' ∧
      Loads r.1 (replaceDead dead s.nodes.elems partToNode 0 0).2.length s s' := by
  have hlen := replaceDead_length dead s.nodes.elems partToNode 0 0
  have hlt : ∀ p ∈ (replaceDead dead s.nodes.elems partToNode 0 0).2,
      p < (replaceDead dead s.nodes.elems partToNode 0 0).1.length := by
    intro p hp
    have := (replaceDead_updates dead s.nodes.elems partToNode 0 0).1 p hp
    rw [hlen]
    omega
  refine ⟨_, ?_, loads_replaced (replaceDead dead s.nodes.elems partToNode 0 0).1
    ((replaceDead dead s.nodes.elems partToNode 0 0).2.map fun p =>
      .kLoadCheckpoint r.1 p ((replaceDead dead s.nodes.elems partToNode 0 0).1.getD p.toNat 0) r.2)
    (by simp) (by simp)⟩
  simp only [recoverRead, replaceDeadnodes_ok hm, Bind.bind, Except.bind]
  simp only [loadCheckpointPartial, getMap_replaced, Bind.bind, Except.bind, foldlM_loadPart _ hlt,
    foldl_sendLoad]
  rfl

theorem Loads.loads_eq (h : Loads c k s s') (c' : Int) :
    s'.loads c' = s.loads c' + if c' = c then k else 0 := by
  obtain ⟨cmds, hcmds, hlen, hall⟩ := h.commands
  rw [loads, hcmds, countP_append, loads]
  congr 1
  split
  · next hc =>
    rw [← hlen, countP_eq_length]
    intro x hx
    obtain ⟨p, n, url, rfl⟩ := hall x hx
    simp [isLoad, hc]
  · next hc =>
    rw [countP_eq_zero]
    intro x hx
    obtain ⟨p, n, url, rfl⟩ := hall x hx
    simpa [isLoad] using Ne.symm hc

theorem Loads.updateNodes_eq (h : Loads c k s s') (c' : Int) :
    s'.updateNodes c' = s.updateNodes c' := by
  obtain ⟨cmds, hcmds, -, hall⟩ := h.commands
  rw [updateNodes, hcmds, filterMap_append, updateNodes]
  have hnil : cmds.filterMap (updateNode c') = [] := by
    rw [filterMap_eq_nil_iff]
    intro x hx
    obtain ⟨p, n, url, rfl⟩ := hall x hx
    rfl
  rw [hnil, append_nil]

theorem insertCallback_of_ne (callbacks : Int → Option Callback) {f : Callback} {c' : Int}
    (hc : c' ≠ c) : insertCallback callbacks c f c' = callbacks c' := by
  unfold insertCallback
  split
  · rfl
  · exact update_of_ne hc _ _

theorem insertCallback_self {callbacks : Int → Option Callback} {f : Callback}
    (h : callbacks c = none) : insertCallback callbacks c f c = some f := by
  simp [insertCallback, h]

/-- A load of at least one partition keeps the counters right. -/
theorem Loads.pending (h : Loads c k s s') (hk : 0 < k) (hc : c ∉ s.recovering)
    (hnone : s.loader.callbacks c = none) (hp : ∀ c, Pending s c) (c' : Int) : Pending s' c' := by
  have hl := h.loads_eq c'
  have hr : c' ∈ s'.recovering ↔ c' = c ∨ c' ∈ s.recovering := by
    rw [h.recovering, mem_insert]
  have hupd : Updating s' c' := (hp c').toUpdating.congr (by rw [h.updating])
    (by rw [h.updateNodes_eq]) h.nodes (by rw [h.manager]) (by rw [h.manager])
  refine ⟨?_, hupd⟩
  by_cases he : c' = c
  · subst he
    have hzero : s.loads c' = 0 := by
      have := mt (hp c').load.mpr hc
      omega
    rw [if_pos rfl] at hl
    refine ⟨by rw [hr]; simp only [true_or, true_iff]; omega, fun _ => ?_, fun _ => ?_⟩
    · rw [h.loader, hl, hzero]
      simp
    · rw [h.loader]
      exact insertCallback_self hnone
  · rw [if_neg he] at hl
    refine (hp c').toLoading.congr (by rw [hr]; exact or_iff_right he) hl ?_ ?_ ?_ <;> rw [h.loader]
    · exact update_of_ne he _ _
    · exact update_of_ne he _ _
    · exact insertCallback_of_ne _ he

/-- What the loops that start loads keep of `s`, apart from the collections `cs`. -/
structure Kept (cs : List Int) (s s' : RecoverManager) : Prop where
  nodes : s'.nodes = s.nodes
  manager : s'.manager = s.manager
  updating : s'.updating = s.updating
  started : s'.started = s.started ∧ s'.callback = s.callback ∧ s'.invoked = s.invoked
  recovering : ∀ c, c ∉ cs → (c ∈ s'.recovering ↔ c ∈ s.recovering)
  callbacks : ∀ c, c ∉ cs → s'.loader.callbacks c = s.loader.callbacks c
  collectionMap : ∀ c, c ∉ cs → s'.collectionMap c = s.collectionMap c

theorem Loads.kept (h : Loads c k s s') : Kept [c] s s' where
  nodes := h.nodes
  manager := h.manager
  updating := h.updating
  started := h.started
  recovering c' hc' := by
    rw [h.recovering, mem_insert]
    exact or_iff_right (by simpa using hc')
  callbacks c' hc' := by
    rw [h.loader]
    exact insertCallback_of_ne _ (by simpa using hc')
  collectionMap c' hc' := h.others c' (by simpa using hc')

theorem Kept.trans {cs cs' : List Int} {s₁ s₂ s₃ : RecoverManager} (h : Kept cs s₁ s₂)
    (h' : Kept cs' s₂ s₃) : Kept (cs ++ cs') s₁ s₃ where
  nodes := h'.nodes.trans h.nodes
  manager := h'.manager.trans h.manager
  updating := h'.updating.trans h.updating
  started := ⟨h'.started.1.trans h.started.1, h'.started.2.1.trans h.started.2.1,
    h'.started.2.2.trans h.started.2.2⟩
  recovering c hc := by
    obtain ⟨h₁, h₂⟩ := not_or.mp (mt mem_append.mpr hc)
    exact (h'.recovering c h₂).trans (h.recovering c h₁)
  callbacks c hc := by
    obtain ⟨h₁, h₂⟩ := not_or.mp (mt mem_append.mpr hc)
    exact (h'.callbacks c h₂).trans (h.callbacks c h₁)
  collectionMap c hc := by
    obtain ⟨h₁, h₂⟩ := not_or.mp (mt mem_append.mpr hc)
    exact (h'.collectionMap c h₂).trans (h.collectionMap c h₁)

/-- A loop that starts a load of at least one partition for each of some new collections. -/
theorem foldlM_loads {f : RecoverManager → Int × String → Except RecoverCheck RecoverManager}
    (l : List (Int × String)) (s₀ s : RecoverManager)
    (hf : ∀ x ∈ l, ∀ t : RecoverManager, t.nodes = s₀.nodes →
      t.collectionMap x.1 = s₀.collectionMap x.1 →
      ∃ t' k, f t x = .ok t' ∧ 0 < k ∧ Loads x.1 k t t')
    (hnd : (l.map Prod.fst).Nodup) (hnodes : s.nodes = s₀.nodes)
    (hmap : ∀ c ∈ l.map Prod.fst, s.collectionMap c = s₀.collectionMap c)
    (hnew : ∀ c ∈ l.map Prod.fst, c ∉ s.recovering ∧ s.loader.callbacks c = none)
    (hp : ∀ c, Pending s c) :
    ∃ s', l.foldlM f s = .ok s' ∧ Kept (l.map Prod.fst) s s' ∧ ∀ c, Pending s' c := by
  induction l generalizing s with
  | nil => exact ⟨s, rfl, ⟨rfl, rfl, rfl, ⟨rfl, rfl, rfl⟩, by simp, by simp, by simp⟩, hp⟩
  | cons x l ih =>
    rw [map_cons, nodup_cons] at hnd
    obtain ⟨t, k, ht, hk, hload⟩ := hf x mem_cons_self s hnodes
      (hmap x.1 (by simp))
    obtain ⟨hx, hnone⟩ := hnew x.1 (by simp)
    have hkept := hload.kept
    have hout : ∀ c ∈ l.map Prod.fst, c ∉ [x.1] := by
      intro c hc he
      rw [mem_singleton] at he
      exact hnd.1 (he ▸ hc)
    obtain ⟨s', hs', hk', hp'⟩ := ih t (fun y hy => hf y (mem_cons_of_mem _ hy)) hnd.2
      (hload.nodes.trans hnodes)
      (fun c hc => (hkept.collectionMap c (hout c hc)).trans (hmap c (mem_cons_of_mem _ hc)))
      (fun c hc => by
        obtain ⟨h₁, h₂⟩ := hnew c (mem_cons_of_mem _ hc)
        exact ⟨mt (hkept.recovering c (hout c hc)).mp h₁, (hkept.callbacks c (hout c hc)).trans h₂⟩)
      (hload.pending hk hx hnone hp)
    refine ⟨s', ?_, hkept.trans hk', hp'⟩
    rw [foldlM_cons, ht]
    exact hs'

/-! ### The maps are sent -/

theorem loads_updateMap (x : Int × String) (c : Int) : (s.updateMap x).loads c = s.loads c := by
  have hzero : (s.nodes.elems.map fun n => Command.kUpdateCollection x.1 n).countP (isLoad c) = 0 := by
    rw [countP_eq_zero]
    intro y hy
    obtain ⟨n, -, rfl⟩ := mem_map.mp hy
    simp [isLoad]
  show (s.commands ++ _).countP (isLoad c) = _
  rw [countP_append, hzero]
  rfl

theorem updateNodes_updateMap (x : Int × String) (c : Int) :
    (s.updateMap x).updateNodes c = s.updateNodes c ++ if c = x.1 then s.nodes.elems else [] := by
  show (s.commands ++ _).filterMap (updateNode c) = _
  rw [filterMap_append, filterMap_map]
  congr 1
  by_cases hc : c = x.1
  · rw [if_pos hc]
    refine (filterMap_congr fun n _ => ?_).trans filterMap_some
    simp [updateNode, hc]
  · rw [if_neg hc, filterMap_eq_nil_iff]
    intro n _
    simpa [updateNode] using Ne.symm hc

theorem pending_updateMap (x : Int × String) (hnodes : s.nodes.elems ≠ []) (hx : x.1 ∉ s.updating)
    (hnone : s.manager.callbacks x.1 = none) (hp : ∀ c, Pending s c) (c : Int) :
    Pending (s.updateMap x) c := by
  have hu := updateNodes_updateMap (s := s) x c
  have hupd : c ∈ (s.updateMap x).updating ↔ c = x.1 ∨ c ∈ s.updating := mem_insert
  refine ⟨(hp c).toLoading.congr Iff.rfl (loads_updateMap x c) rfl rfl rfl, ?_⟩
  by_cases he : c = x.1
  · subst he
    have hnil : s.updateNodes x.1 = [] := by
      by_contra hne
      exact hx ((hp x.1).update.mpr hne)
    rw [hnil, if_pos rfl, nil_append] at hu
    have hempty : (s.updateMap x).manager.receivedReplies x.1 = .empty := update_self _ _ _
    refine ⟨?_, fun _ => ?_, fun _ => insertCallback_self hnone, ?_, fun n _ => ?_⟩
    · rw [hupd, hu]
      simp [hnodes]
    · rw [hempty, hu]
      show 0 + _ = _
      rw [Nat.zero_add]
      rfl
    · rw [hu]
      exact s.nodes.nodup
    · rw [hempty]
      exact notMem_empty n
  · rw [if_neg he, append_nil] at hu
    exact (hp c).toUpdating.congr (hupd.trans (or_iff_right he)) (by rw [hu]) rfl
      (update_of_ne he _ _) (insertCallback_of_ne _ he)

theorem foldl_updateMap (l : List (Int × String)) (s : RecoverManager)
    (hnd : (l.map Prod.fst).Nodup) (hnodes : s.nodes.elems ≠ [])
    (hnew : ∀ c ∈ l.map Prod.fst, c ∉ s.updating ∧ s.manager.callbacks c = none)
    (hp : ∀ c, Pending s c) :
    (∀ c, Pending (l.foldl updateMap s) c) ∧ (l.foldl updateMap s).nodes = s.nodes ∧
    ((l.foldl updateMap s).started = s.started ∧ (l.foldl updateMap s).callback = s.callback ∧
      (l.foldl updateMap s).invoked = s.invoked) ∧
    (∀ c, c ∈ (l.foldl updateMap s).updating ↔ c ∈ s.updating ∨ c ∈ l.map Prod.fst) ∧
    ∀ c, c ∉ l.map Prod.fst → (l.foldl updateMap s).manager.callbacks c = s.manager.callbacks c := by
  induction l generalizing s with
  | nil => exact ⟨hp, rfl, ⟨rfl, rfl, rfl⟩, by simp, by simp⟩
  | cons x l ih =>
    rw [map_cons, nodup_cons] at hnd
    obtain ⟨hx, hnone⟩ := hnew x.1 (by simp)
    have hne : ∀ c ∈ l.map Prod.fst, c ≠ x.1 := by
      rintro c hc rfl
      exact hnd.1 hc
    have hcall : ∀ c, c ≠ x.1 → (s.updateMap x).manager.callbacks c = s.manager.callbacks c :=
      fun c hc => insertCallback_of_ne _ hc
    have hupd : ∀ c, c ∈ (s.updateMap x).updating ↔ c = x.1 ∨ c ∈ s.updating :=
      fun c => mem_insert
    obtain ⟨hp', hn', hst', hup', hcb'⟩ := ih (s.updateMap x) hnd.2 hnodes
      (fun c hc => by
        obtain ⟨h₁, h₂⟩ := hnew c (mem_cons_of_mem _ hc)
        exact ⟨fun h => ((hupd c).mp h).elim (hne c hc) h₁, (hcall c (hne c hc)).trans h₂⟩)
      (pending_updateMap x hnodes hx hnone hp)
    refine ⟨hp', hn', hst', fun c => ?_, fun c hc => ?_⟩
    · rw [foldl_cons, hup', hupd, map_cons, mem_cons]
      tauto
    · rw [map_cons, mem_cons, not_or] at hc
      rw [foldl_cons, hcb' c hc.2, hcall c hc.1]

/-! ### The commands are answered -/

/-- The recovery is over when nothing is waited for. -/
def settle (s : RecoverManager) : RecoverManager :=
  if s.recovering.elems = [] ∧ s.updating.elems = [] then
    { s with started := false, invoked := s.invoked + 1, callback := false }
  else s

theorem settle_managers (f : CheckpointLoader → CheckpointLoader)
    (g : CollectionManager → CollectionManager) :
    { s.settle with loader := f s.settle.loader, manager := g s.settle.manager } =
      settle { s with loader := f s.loader, manager := g s.manager } := by
  by_cases h : s.recovering.elems = [] ∧ s.updating.elems = []
  · rw [show s.settle = _ from if_pos h]
    exact (if_pos h).symm
  · rw [show s.settle = s from if_neg h]
    exact (if_neg h).symm

theorem settle_inv (hp : ∀ c, Pending s c) (hstarted : s.started = true) (hcall : s.callback = true)
    (hinv : s.invoked = n) : Inv n s.settle := by
  unfold settle
  split
  · next h =>
    have hnil := (commands_eq_nil hp).mp h
    refine ⟨fun c => ⟨?_, ?_⟩, by simp [hnil], rfl, by simp [hinv]⟩
    · exact (hp c).toLoading.congr Iff.rfl rfl rfl rfl rfl
    · exact (hp c).toUpdating.congr Iff.rfl (.refl _) rfl rfl rfl
  · next h =>
    have hne := mt (commands_eq_nil hp).mpr h
    exact ⟨hp, by simp [hstarted, hne], by rw [hcall, hstarted], by simp [hstarted, hinv]⟩

theorem recoverDone_load (hstarted : s.started = true) (hcall : s.callback = true)
    (hc : c ∈ s.recovering) : s.recoverDone c .loadCheckpoint =
      .ok ({ s with recovering := s.recovering.erase c }.settle) := by
  simp only [recoverDone, eraseDone, check_pos hstarted, check_pos hc, settle, Bind.bind, Except.bind,
    pure, Except.pure]
  split
  · rw [check_pos hcall]
  · rfl

theorem recoverDone_update (hstarted : s.started = true) (hcall : s.callback = true)
    (hc : c ∈ s.updating) : s.recoverDone c .updateCollectionMap =
      .ok ({ s with updating := s.updating.erase c }.settle) := by
  simp only [recoverDone, eraseDone, check_pos hstarted, check_pos hc, settle, Bind.bind, Except.bind,
    pure, Except.pure]
  split
  · rw [check_pos hcall]
  · rfl

/-- The commands without the `i`-th one. -/
def answered (s : RecoverManager) (i : Nat) : RecoverManager :=
  { s with commands := s.commands.eraseIdx i }

theorem perm_answered (hi : s.commands[i]? = some x) :
    s.commands.Perm (x :: (s.answered i).commands) := by
  obtain ⟨hlt, rfl⟩ := List.getElem?_eq_some_iff.mp hi
  exact (getElem_cons_eraseIdx_perm hlt).symm

theorem loads_answered (hi : s.commands[i]? = some x) (c : Int) :
    s.loads c = (s.answered i).loads c + if isLoad c x then 1 else 0 := by
  rw [loads, (perm_answered hi).countP_eq, countP_cons]
  rfl

theorem updateNodes_answered (hi : s.commands[i]? = some x) (c : Int) :
    (s.updateNodes c).Perm ((updateNode c x).toList ++ (s.answered i).updateNodes c) := by
  refine ((perm_answered hi).filterMap (updateNode c)).trans ?_
  cases hx : updateNode c x <;> simp [hx, updateNodes]

/-- `FinishLoadCheckpoint` before the callback. -/
def counted (s : RecoverManager) (c : Int) : RecoverManager :=
  { s with loader := { s.loader with
    replyCount := Function.update s.loader.replyCount c (s.loader.replyCount c + 1) } }

/-- The callback of the loader for `c` is gone, and the checkpoint is not waited for. -/
def loaded (s : RecoverManager) (c : Int) : RecoverManager :=
  { s.counted c with
    recovering := s.recovering.erase c
    loader := { (s.counted c).loader with callbacks := Function.update s.loader.callbacks c none } }

theorem finishLoadCheckpoint_last (hstarted : s.started = true) (hcall : s.callback = true)
    (hc : c ∈ s.recovering) (hcb : s.loader.callbacks c = some (.recoverDone c .loadCheckpoint))
    (hlast : s.loader.replyCount c + 1 = s.loader.expected c) :
    s.finishLoadCheckpoint c = .ok (s.loaded c).settle := by
  have hcount : (s.counted c).loader.replyCount c = (s.counted c).loader.expected c :=
    (Function.update_self _ _ _).trans hlast
  have hdone := recoverDone_load (s := s.counted c) hstarted hcall hc
  show (if (s.counted c).loader.replyCount c = (s.counted c).loader.expected c then
    match (s.counted c).loader.callbacks c with
    | none => .error .loaderCallback
    | some f => do
      let s ← (s.counted c).call f
      return { s with loader := { s.loader with
        callbacks := Function.update s.loader.callbacks c none } }
    else Except.ok (s.counted c)) = _
  rw [if_pos hcount, show (s.counted c).loader.callbacks c = _ from hcb]
  simp only [call, hdone, Bind.bind, Except.bind, pure, Except.pure]
  exact congrArg Except.ok
    (settle_managers (fun l => { l with callbacks := Function.update l.callbacks c none }) id)

theorem finishLoadCheckpoint_more (hmore : s.loader.replyCount c + 1 ≠ s.loader.expected c) :
    s.finishLoadCheckpoint c = .ok (s.counted c) :=
  if_neg (fun h => hmore ((update_self _ _ _).symm.trans h))

/-- The nodes that have answered, with `n`. -/
def received (s : RecoverManager) (c n : Int) : RecoverManager :=
  { s with manager := { s.manager with
    receivedReplies := Function.update s.manager.receivedReplies c
      ((s.manager.receivedReplies c).insert n) } }

/-- The callback of the manager for `c` is gone, and the map is not waited for. -/
def updated (s : RecoverManager) (c : Int) : RecoverManager :=
  { s with
    updating := s.updating.erase c
    manager :=
      { receivedReplies := Function.update s.manager.receivedReplies c .empty
        callbacks := Function.update s.manager.callbacks c none } }

theorem finishUpdate_last {n : Int} (hstarted : s.started = true) (hcall : s.callback = true)
    (hc : c ∈ s.updating)
    (hcb : s.manager.callbacks c = some (.recoverDone c .updateCollectionMap))
    (hlast : ((s.manager.receivedReplies c).insert n).elems.length = s.nodes.elems.length) :
    s.finishUpdate c n = .ok (s.updated c).settle := by
  have hdone := recoverDone_update (s := { s with manager := { s.manager with
    receivedReplies := Function.update s.manager.receivedReplies c .empty } }) hstarted hcall hc
  unfold finishUpdate
  simp only [hlast, if_true, hcb, call, hdone, Bind.bind, Except.bind, pure, Except.pure]
  exact congrArg Except.ok
    (settle_managers id fun m => { m with callbacks := Function.update m.callbacks c none })

theorem finishUpdate_more {n : Int}
    (hmore : ((s.manager.receivedReplies c).insert n).elems.length ≠ s.nodes.elems.length) :
    s.finishUpdate c n = .ok (s.received c n) :=
  if_neg hmore

theorem answer_load {p m : Int} {url : String} (h : Inv n s)
    (hi : s.commands[i]? = some (.kLoadCheckpoint c p m url)) :
    ∃ s', (s.answered i).finishLoadCheckpoint c = .ok s' ∧ Inv n s' := by
  have hloads := loads_answered hi
  have hupd : ∀ c', ((s.answered i).updateNodes c').Perm (s.updateNodes c') := fun c' =>
    (updateNodes_answered hi c').symm
  have hself := hloads c
  rw [if_pos (by simp [isLoad])] at hself
  have hother : ∀ c', c' ≠ c → (s.answered i).loads c' = s.loads c' := by
    intro c' hc'
    rw [hloads c', if_neg (by simpa [isLoad] using Ne.symm hc'), Nat.add_zero]
  have hp := h.pending c
  have hc : c ∈ s.recovering := hp.load.mpr (by omega)
  have hstarted : s.started = true := h.started.mpr (fun hnil => by simp [hnil] at hi)
  have hcall : s.callback = true := h.callback.trans hstarted
  have hinv : s.invoked = n := by rw [h.invoked, if_pos hstarted]
  have hcount := hp.loadCount hc
  by_cases hlast : s.loader.replyCount c + 1 = s.loader.expected c
  · -- the last answer for `c`
    refine ⟨_, finishLoadCheckpoint_last hstarted hcall hc (hp.loadCall hc) hlast,
      settle_inv (fun c' => ⟨?_, ?_⟩) hstarted hcall hinv⟩
    · have hmem : c' ∈ ((s.answered i).loaded c).recovering ↔ c' ≠ c ∧ c' ∈ s.recovering :=
        mem_erase
      by_cases he : c' = c
      · subst he
        have hzero : ((s.answered i).loaded c').loads c' = 0 := by
          show (s.answered i).loads c' = 0
          omega
        have hout : c' ∉ ((s.answered i).loaded c').recovering := fun hm => (hmem.mp hm).1 rfl
        exact ⟨by rw [hzero]; exact ⟨fun hm => absurd hm hout, fun hm => absurd hm (by omega)⟩,
          fun hm => absurd hm hout, fun hm => absurd hm hout⟩
      · exact (h.pending c').toLoading.congr (hmem.trans (and_iff_right he)) (hother c' he)
          (update_of_ne he _ _) rfl (update_of_ne he _ _)
    · exact (h.pending c').toUpdating.congr Iff.rfl (hupd c') rfl rfl rfl
  · refine ⟨_, finishLoadCheckpoint_more hlast, fun c' => ⟨?_, ?_⟩, ?_, h.callback, h.invoked⟩
    · by_cases he : c' = c
      · subst he
        have hpos : 0 < (s.answered i).loads c' := by omega
        refine ⟨iff_of_true hc hpos, fun _ => ?_, fun _ => hp.loadCall hc⟩
        have hrep : ((s.answered i).counted c').loader.replyCount c' = s.loader.replyCount c' + 1 :=
          update_self _ _ _
        show _ + (s.answered i).loads c' = s.loader.expected c'
        rw [hrep]
        omega
      · exact (h.pending c').toLoading.congr Iff.rfl (hother c' he)
          (update_of_ne he _ _) rfl rfl
    · exact (h.pending c').toUpdating.congr Iff.rfl (hupd c') rfl rfl rfl
    · refine iff_of_true hstarted fun hnil => ?_
      have hzero : (s.answered i).loads c = 0 := by
        show (s.answered i).commands.countP _ = 0
        rw [show (s.answered i).commands = [] from hnil]
        rfl
      omega

theorem answer_update {i : Nat} {m : Int} (h : Inv n s)
    (hi : s.commands[i]? = some (.kUpdateCollection c m)) :
    ∃ s', (s.answered i).finishUpdate c m = .ok s' ∧ Inv n s' := by
  have hloads : ∀ c', (s.answered i).loads c' = s.loads c' := fun c' => (loads_answered hi c').symm
  have hself : (s.updateNodes c).Perm (m :: (s.answered i).updateNodes c) := by
    simpa [updateNode] using updateNodes_answered hi c
  have hother : ∀ c', c' ≠ c → ((s.answered i).updateNodes c').Perm (s.updateNodes c') := by
    intro c' hc'
    simpa [updateNode, Ne.symm hc'] using (updateNodes_answered hi c').symm
  have hp := h.pending c
  have hm : m ∈ s.updateNodes c := hself.mem_iff.mpr mem_cons_self
  have hc : c ∈ s.updating := hp.update.mpr (ne_nil_of_mem hm)
  have hstarted : s.started = true := h.started.mpr (fun hnil => by simp [hnil] at hi)
  have hcall : s.callback = true := h.callback.trans hstarted
  have hinv : s.invoked = n := by rw [h.invoked, if_pos hstarted]
  have hcount := hp.updateCount hc
  have hnd := hself.nodup_iff.mp hp.nodup
  have hins : ((s.manager.receivedReplies c).insert m).elems.length =
      (s.manager.receivedReplies c).elems.length + 1 :=
    (perm_insert (hp.fresh m hm)).length_eq
  rw [hself.length_eq, length_cons] at hcount
  by_cases hlast : ((s.manager.receivedReplies c).insert m).elems.length = s.nodes.elems.length
  · -- the last node
    refine ⟨_, finishUpdate_last hstarted hcall hc (hp.updateCall hc) hlast,
      settle_inv (fun c' => ⟨?_, ?_⟩) hstarted hcall hinv⟩
    · exact (h.pending c').toLoading.congr Iff.rfl (hloads c') rfl rfl rfl
    · have hmem : c' ∈ ((s.answered i).updated c).updating ↔ c' ≠ c ∧ c' ∈ s.updating :=
        mem_erase
      by_cases he : c' = c
      · subst he
        have hnil : ((s.answered i).updated c').updateNodes c' = [] := by
          apply length_eq_zero_iff.mp
          show ((s.answered i).updateNodes c').length = 0
          omega
        have hout : c' ∉ ((s.answered i).updated c').updating := fun hm => (hmem.mp hm).1 rfl
        refine ⟨?_, fun hm => absurd hm hout, fun hm => absurd hm hout, ?_, ?_⟩ <;> rw [hnil]
        · exact iff_of_false hout (fun hne => hne rfl)
        · exact nodup_nil
        · simp
      · exact (h.pending c').toUpdating.congr (hmem.trans (and_iff_right he)) (hother c' he) rfl
          (update_of_ne he _ _) (update_of_ne he _ _)
  · refine ⟨_, finishUpdate_more hlast, fun c' => ⟨?_, ?_⟩, ?_, h.callback, h.invoked⟩
    · exact (h.pending c').toLoading.congr Iff.rfl (hloads c') rfl rfl rfl
    · by_cases he : c' = c
      · subst he
        have hrec : ((s.answered i).received c' m).manager.receivedReplies c' =
            (s.manager.receivedReplies c').insert m := update_self _ _ _
        refine ⟨iff_of_true hc fun hnil => ?_, fun _ => ?_, fun _ => hp.updateCall hc,
          (nodup_cons.mp hnd).2, fun n hn => ?_⟩
        · have hzero : ((s.answered i).updateNodes c').length = 0 := by
            rw [show (s.answered i).updateNodes c' = [] from hnil]
            rfl
          omega
        · show _ + ((s.answered i).updateNodes c').length = s.nodes.elems.length
          rw [hrec]
          omega
        · rw [hrec, mem_insert, not_or]
          refine ⟨?_, hp.fresh n (hself.mem_iff.mpr (mem_cons_of_mem _ hn))⟩
          rintro rfl
          exact (nodup_cons.mp hnd).1 hn
      · exact (h.pending c').toUpdating.congr Iff.rfl (hother c' he) rfl
          (update_of_ne he _ _) rfl
    · refine iff_of_true hstarted fun hnil => ?_
      have hzero : ((s.answered i).updateNodes c).length = 0 := by
        rw [updateNodes, show (s.answered i).commands = [] from hnil]
        rfl
      omega

/-- Every answer is accepted and keeps the counters right. -/
theorem answer_inv (h : Inv n s) (i : Nat) : ∃ s', s.answer i = .ok s' ∧ Inv n s' := by
  unfold answer
  split
  · exact ⟨s, rfl, h⟩
  · next hi => exact answer_load h hi
  · next hi => exact answer_update h hi

theorem reachable_inv {t : RecoverManager} (h : Inv n s) (ht : Reachable s t) : Inv n t := by
  refine Reach.induct ht h ?_
  intro t i u _ hinv _ hstep
  obtain ⟨u', hu', hinv'⟩ := answer_inv hinv i
  cases hu'.symm.trans hstep
  exact hinv'

/-! ## Recovery completes -/

/-- `Recover` may be called: no other recovery runs, and the collections are known, distinct and
not in the hands of another user of the two managers. -/
structure Ready (s : RecoverManager) (writes reads : List (Int × String)) : Prop where
  started : s.started = false
  commands : s.commands = []
  nodes : s.nodes.elems ≠ []
  some : writes ++ reads ≠ []
  distinct : ((writes ++ reads).map Prod.fst).Nodup
  known : ∀ x ∈ writes ++ reads, (s.collectionMap x.1).isSome
  free : ∀ x ∈ writes ++ reads, s.loader.callbacks x.1 = none ∧ s.manager.callbacks x.1 = none

/-- Something is loaded for every collection: what is written has a partition, and what is read
has one on a dead node. -/
structure Loadable (s : RecoverManager) (dead : OrdSet Int) (writes reads : List (Int × String)) :
    Prop where
  writes : ∀ w ∈ writes, s.collectionMap w.1 ≠ .some []
  reads : ∀ r ∈ reads, ∀ partToNode, s.collectionMap r.1 = .some partToNode →
    ∃ n ∈ partToNode, n ∈ dead

variable {dead : OrdSet Int} {writes reads : List (Int × String)}

theorem recover_inv (hr : Ready s writes reads) (hl : Loadable s dead writes reads) :
    ∃ s₁, s.recover dead writes reads = .ok s₁ ∧ Inv s.invoked s₁ := by
  let s₀ : RecoverManager :=
    { s with started := true, callback := true, recovering := .empty, updating := .empty }
  have hp₀ : ∀ c, Pending s₀ c := by
    intro c
    have hc : s₀.commands = [] := hr.commands
    have hmem : c ∉ (.empty : OrdSet Int) := notMem_empty c
    have hloads : s₀.loads c = 0 := by simp [loads, hc]
    have hupd : s₀.updateNodes c = [] := by simp [updateNodes, hc]
    refine ⟨⟨?_, fun h => absurd h hmem, fun h => absurd h hmem⟩, ?_, fun h => absurd h hmem,
      fun h => absurd h hmem, ?_, ?_⟩
    · exact iff_of_false hmem (by omega)
    · exact iff_of_false hmem (fun h => h hupd)
    · simp [hupd]
    · simp [hupd]
  have hnd := hr.distinct
  rw [map_append, nodup_append] at hnd
  obtain ⟨hndw, hndr, hdisj⟩ := hnd
  have hknown : ∀ x ∈ writes ++ reads, ∃ partToNode, s.collectionMap x.1 = .some partToNode :=
    fun x hx => Option.isSome_iff_exists.mp (hr.known x hx)
  have hfree : ∀ c ∈ (writes ++ reads).map Prod.fst,
      s.loader.callbacks c = none ∧ s.manager.callbacks c = none := by
    intro c hc
    obtain ⟨x, hx, rfl⟩ := mem_map.mp hc
    exact hr.free x hx
  have hmapw : ∀ c ∈ writes.map Prod.fst, c ∈ (writes ++ reads).map Prod.fst := fun c hc => by
    rw [map_append]
    exact mem_append_left _ hc
  have hmapr : ∀ c ∈ reads.map Prod.fst, c ∈ (writes ++ reads).map Prod.fst := fun c hc => by
    rw [map_append]
    exact mem_append_right _ hc
  have hout : ∀ c ∈ reads.map Prod.fst, c ∉ writes.map Prod.fst := fun c hc hw => hdisj c hw c hc rfl
  -- the loads of what is written, then of what is read
  obtain ⟨s₁, h₁, hk₁, hp₁⟩ := foldlM_loads (f := recoverWrite dead) writes s₀ s₀
    (fun w hw t _ htm => by
      obtain ⟨partToNode, hm⟩ := hknown w (mem_append_left _ hw)
      obtain ⟨t', ht', hload⟩ := recoverWrite_loads dead (htm.trans hm)
      refine ⟨t', _, ht', ?_, hload⟩
      apply length_pos_iff.mpr
      rintro rfl
      exact hl.writes w hw hm)
    hndw rfl (fun _ _ => rfl)
    (fun c hc => ⟨notMem_empty c, (hfree c (hmapw c hc)).1⟩) hp₀
  obtain ⟨s₂, h₂, hk₂, hp₂⟩ := foldlM_loads (f := recoverRead dead) reads s₀ s₁
    (fun r hmem t htn htm => by
      obtain ⟨partToNode, hm⟩ := hknown r (mem_append_right _ hmem)
      obtain ⟨t', ht', hload⟩ := recoverRead_loads dead (htm.trans hm)
      refine ⟨t', _, ht', ?_, hload⟩
      apply length_pos_iff.mpr
      exact (replaceDead_updates dead t.nodes.elems partToNode 0 0).2.mpr
        (hl.reads r hmem partToNode hm))
    hndr hk₁.nodes (fun c hc => hk₁.collectionMap c (hout c hc))
    (fun c hc => ⟨mt (hk₁.recovering c (hout c hc)).mp (notMem_empty c),
      (hk₁.callbacks c (hout c hc)).trans (hfree c (hmapr c hc)).1⟩) hp₁
  have hk := hk₁.trans hk₂
  have hnodes : s₂.nodes.elems ≠ [] := by
    rw [hk.nodes]
    exact hr.nodes
  have hupd : ∀ c, c ∉ s₂.updating := by
    intro c
    rw [hk.updating]
    exact notMem_empty c
  -- the maps
  obtain ⟨hp₃, hn₃, hst₃, hu₃, hc₃⟩ := foldl_updateMap writes s₂ hndw hnodes
    (fun c hc => ⟨hupd c, by rw [hk.manager]; exact (hfree c (hmapw c hc)).2⟩) hp₂
  obtain ⟨hp₄, -, hst₄, hu₄, -⟩ := foldl_updateMap reads (writes.foldl updateMap s₂) hndr
    (by rw [hn₃]; exact hnodes)
    (fun c hc => ⟨fun h => ((hu₃ c).mp h).elim (hupd c) (hout c hc),
      by rw [hc₃ c (hout c hc), hk.manager]; exact (hfree c (hmapr c hc)).2⟩) hp₃
  refine ⟨reads.foldl updateMap (writes.foldl updateMap s₂), ?_, hp₄, ?_, ?_, ?_⟩
  · unfold recover
    rw [check_pos hr.started]
    show (writes.foldlM (recoverWrite dead) s₀ >>= _) = _
    rw [h₁]
    show (reads.foldlM (recoverRead dead) s₁ >>= _) = _
    rw [h₂]
    rfl
  · refine iff_of_true (hst₄.1.trans (hst₃.1.trans hk.started.1)) fun hnil => ?_
    obtain ⟨x, hx⟩ := exists_mem_of_ne_nil _ hr.some
    have hx' : x.1 ∈ writes.map Prod.fst ∨ x.1 ∈ reads.map Prod.fst := by
      rw [← mem_append, ← map_append]
      exact mem_map_of_mem hx
    have hmem : x.1 ∈ (reads.foldl updateMap (writes.foldl updateMap s₂)).updating := by
      rw [hu₄, hu₃]
      exact hx'.imp_left .inr
    have := ((commands_eq_nil hp₄).mpr hnil).2
    rw [mem_def, this] at hmem
    exact not_mem_nil hmem
  · rw [hst₄.2.1, hst₃.2.1, hk.started.2.1, hst₄.1, hst₃.1, hk.started.1]
  · rw [hst₄.1, hst₃.1, hk.started.1, hst₄.2.2, hst₃.2.2, hk.started.2.2]
    rfl

/-- **Recovery completes exactly once.**  Where something is loaded for every collection,
`Recover` is accepted, every answer is accepted in every order, the callback is not called while
a command is unanswered, and when all are answered it has been called once and another recovery
may start. -/
theorem recover_completes (s : RecoverManager) (dead : OrdSet Int)
    (writes reads : List (Int × String)) (hr : Ready s writes reads)
    (hl : Loadable s dead writes reads) :
    ∃ s₁, s.recover dead writes reads = .ok s₁ ∧ ∀ t, Reachable s₁ t →
      (∀ i, ∃ t', t.answer i = .ok t') ∧
      (t.commands ≠ [] → t.invoked = s.invoked) ∧
      (t.commands = [] → t.invoked = s.invoked + 1 ∧ t.started = false) := by
  obtain ⟨s₁, hs₁, hinv⟩ := recover_inv hr hl
  refine ⟨s₁, hs₁, fun t ht => ?_⟩
  have ht' := reachable_inv hinv ht
  refine ⟨fun i => ?_, fun hne => ?_, fun hnil => ?_⟩
  · obtain ⟨t', hok, -⟩ := answer_inv ht' i
    exact ⟨t', hok⟩
  · rw [ht'.invoked, if_pos (ht'.started.mpr hne)]
  · have hf : t.started = false := by
      by_contra hne
      exact ht'.started.mp (by simpa using hne) hnil
    rw [ht'.invoked, hf]
    exact ⟨rfl, rfl⟩

/-! ### Node 2 is lost -/

/-- Node 1 is left.  Collection 1 has its partitions there, 2 had one of its two on node 2. -/
def survivor : RecoverManager where
  nodes := OrdSet.empty.insert 1
  collectionMap c := if c = 1 then some [1, 1] else if c = 2 then some [2, 1] else none
  loader := ⟨fun _ => 0, fun _ => 0, fun _ => none⟩
  manager := ⟨fun _ => .empty, fun _ => none⟩
  started := false
  callback := false
  recovering := .empty
  updating := .empty
  invoked := 0
  commands := []

theorem ready_survivor {writes reads : List (Int × String)} (hs : writes ++ reads ≠ [])
    (hd : ((writes ++ reads).map Prod.fst).Nodup) (hk : ∀ x ∈ writes ++ reads, x.1 = 1 ∨ x.1 = 2) :
    Ready survivor writes reads := by
  refine ⟨rfl, rfl, by decide, hs, hd, fun x hx => ?_, fun x _ => ⟨rfl, rfl⟩⟩
  obtain h | h := hk x hx <;> rw [h] <;> decide

/-- Collection 1 is read and lost nothing: nothing is loaded for it, and when every command is
answered it is still waited for.  The callback is never called, and no later recovery starts. -/
theorem unharmed_read_stuck :
    Ready survivor [(2, "/w")] [(1, "/r")] ∧
    ∃ s₁ t, survivor.recover (OrdSet.empty.insert 2) [(2, "/w")] [(1, "/r")] = .ok s₁ ∧
      Reachable s₁ t ∧ t.commands = [] ∧ t.invoked = 0 ∧ t.started = true ∧
      ∀ dead writes reads, t.recover dead writes reads = .error .recoverStarted := by
  have hrun : ∃ s₁ t, survivor.recover (empty.insert 2) [(2, "/w")] [(1, "/r")] = .ok s₁ ∧
      run answer s₁ [0, 0, 0, 0] = .ok t ∧ t.commands = [] ∧ t.invoked = 0 ∧ t.started = true :=
    ⟨_, _, rfl, rfl, rfl, rfl, rfl⟩
  obtain ⟨s₁, t, hs₁, ht, hc, hi, hst⟩ := hrun
  refine ⟨ready_survivor (by decide) (by decide) (by decide), s₁, t, hs₁, reach_of_run _ ht, hc, hi,
    hst, fun dead writes reads => ?_⟩
  unfold recover check
  rw [if_neg (by simp [hst])]
  rfl

theorem recover_completes_survivor :
    ∃ s₁ t, survivor.recover (OrdSet.empty.insert 2) [(2, "/w")] [] = .ok s₁ ∧
      s₁.commands.length = 3 ∧ Reachable s₁ t ∧ t.commands = [] ∧ t.invoked = 1 ∧
      t.started = false := by
  have hl : Loadable survivor (empty.insert 2) [(2, "/w")] [] :=
    ⟨by decide, fun r hr => absurd hr not_mem_nil⟩
  obtain ⟨s₁, hs₁, h⟩ := recover_completes survivor (empty.insert 2) [(2, "/w")] []
    (ready_survivor (by decide) (by decide) (by decide)) hl
  have hrun : ∃ s₁ t, survivor.recover (empty.insert 2) [(2, "/w")] [] = .ok s₁ ∧
      s₁.commands.length = 3 ∧ run answer s₁ [2, 0, 0] = .ok t ∧ t.commands = [] :=
    ⟨_, _, rfl, rfl, rfl, rfl⟩
  obtain ⟨s₂, t, hs₂, hlen, ht, hnil⟩ := hrun
  cases hs₁.symm.trans hs₂
  have hreach : Reachable s₁ t := reach_of_run _ ht
  obtain ⟨hinv, hst⟩ := (h t hreach).2.2 hnil
  exact ⟨s₁, t, hs₁, hlen, hreach, hnil, hinv, hst⟩

end RecoverManager

end Tangram
