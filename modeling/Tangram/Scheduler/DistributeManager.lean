import Tangram.Lib.Bag
import Tangram.Lib.RoundRobin
import Tangram.Plan.Spec

/-!
# Distribute plans

`Distribute` (`core/plan/distribute.hpp`), the worker's part of it
(`Worker::Distribute`) and `DistributeManager`
(`core/scheduler/distribute_manager.cpp`).  The scheduler sends a command for each
partition; the worker that gets it takes its partition out of the whole vector; the
scheduler collects the replies.  Any number of plans may be under way, and messages
arrive in any order.

The vector travels in a stream, see `Wire.DistributeSpec.roundTrip`; here it is the
data of the spec.

    in every state that is reached, a plan without messages under way is `Installed`,
    and any other has left the collection map alone                     (distribute_exact)
-/

namespace Tangram

open StepRun RoundRobin List Function

variable {C : Type}

inductive DistributeCheck
  | nodeIter | part | noMessage
deriving DecidableEq, Repr

/-! ## The create function -/

namespace Distribute

/-- The loop over the vector. -/
def addFrom (partId numPart : Nat) : Nat → List C → List C → List C
  | _, part, [] => part
  | i, part, elem :: vec =>
    addFrom partId numPart (i + 1) (if i % numPart = partId then part ++ [elem] else part) vec

/-- The function that `Register` adds for the collection. -/
def createPart (vec : List C) (partId numPart : Nat) : List C := addFrom partId numPart 0 [] vec

theorem addFrom_eq (partId numPart i : Nat) (part vec : List C) :
    addFrom partId numPart i part vec = part ++ turns numPart partId i vec := by
  induction vec generalizing i part with
  | nil => exact (append_nil part).symm
  | cons elem vec ih =>
    unfold addFrom turns
    rw [ih]
    split
    · rw [append_assoc]
      rfl
    · rfl

theorem createPart_eq (vec : List C) (partId numPart : Nat) :
    createPart vec partId numPart = turns numPart partId 0 vec := addFrom_eq partId numPart 0 [] vec

/-- The partitions have all of the vector once, each in the order of the vector, and their sizes
differ by one at most. -/
structure Split (vec : List C) (n : Nat) : Prop where
  all : ((List.range n).flatMap fun p => createPart vec p n).Perm vec
  inOrder : ∀ p < n, (createPart vec p n).Sublist vec
  even : ∀ p < n, ∀ q < n, (createPart vec p n).length ≤ (createPart vec q n).length + 1

theorem split (vec : List C) {n : Nat} (hn : 0 < n) : Split vec n := by
  constructor
  · simp only [createPart_eq]
    exact flatMap_turns_perm hn 0 vec
  · intro p _
    rw [createPart_eq]
    exact turns_sublist n p 0 vec
  · intro p hp q hq
    rw [createPart_eq, createPart_eq, length_turns, length_turns]
    exact share_le hp hq

end Distribute

/-! ## Messages and their handlers -/

/-- `kDistribute` to a node, and `kFinishDistribute`. -/
inductive DistributeMsg (C : Type)
  | distribute (node : Int) (partId : Nat) (planId : Int) (spec : DistributeSpec (List C))
  | finish (collectionId : Int) (partId : Nat) (nodeId planId : Int)
deriving DecidableEq, Repr

/-- The manager, the messages under way and the partitions of the workers, by node, collection and
partition.  `updates` are the calls of `CollectionManager::Update`, with the plan that each
finishes; `started` are the plans so far. -/
structure DistributeManager (C : Type) where
  partExpectedMap : Int → Int
  distributeMap : Int → OrdMap Nat Int
  collectionMap : Int → Option (List Int)
  updates : List (Int × Int)
  messages : List (DistributeMsg C)
  partitions : Int × Int × Nat → Option (List C)
  started : List (Int × DistributeSpec (List C))

inductive DistributeEvent (C : Type)
  | distribute (planId : Int) (spec : DistributeSpec (List C))
  | deliver (i : Nat)
deriving DecidableEq, Repr

/-- The number of partitions. -/
def DistributeSpec.parts {δ : Type} (spec : DistributeSpec δ) : Nat := spec.numPartition.toNat

namespace DistributeManager

/-- The loop over the partitions from `i` on, with the iterator at `it`. -/
def send (nodes : List Int) (planId : Int) (spec : DistributeSpec (List C)) :
    Nat → Nat → Nat → Except DistributeCheck (List (DistributeMsg C))
  | 0, _, _ => .ok []
  | n + 1, i, it =>
    match nodes[it]? with
    | none => .error .nodeIter
    | some node => do
      let rest ← send nodes planId spec n (i + 1) (if it + 1 = nodes.length then 0 else it + 1)
      return .distribute node i planId spec :: rest

def distribute (nodes : OrdSet Int) (s : DistributeManager C) (planId : Int)
    (spec : DistributeSpec (List C)) : Except DistributeCheck (DistributeManager C) := do
  let msgs ← send nodes.elems planId spec spec.parts 0 0
  return { s with
    partExpectedMap := Function.update s.partExpectedMap planId spec.numPartition
    messages := s.messages ++ msgs
    started := s.started ++ [(planId, spec)] }

/-- `Worker::Distribute`. -/
def create (s : DistributeManager C) (node : Int) (partId : Nat) (planId : Int)
    (spec : DistributeSpec (List C)) : DistributeManager C :=
  let part := Distribute.createPart spec.data partId spec.parts
  { s with
    partitions := Function.update s.partitions (node, spec.collectionId, partId) (some part)
    messages := s.messages ++ [.finish spec.collectionId partId node planId] }

/-- The node of every partition. -/
def partToNode (parts : OrdMap Nat Int) (n : Nat) : Except DistributeCheck (List Int) :=
  (List.range n).mapM fun i =>
    match parts.get? i with
    | none => .error .part
    | some node => .ok node

def finishDistribute (s : DistributeManager C) (collectionId : Int) (partId : Nat)
    (nodeId planId : Int) : Except DistributeCheck (DistributeManager C) :=
  let parts := (s.distributeMap collectionId).set partId nodeId
  let s := { s with distributeMap := Function.update s.distributeMap collectionId parts }
  if (parts.keys.elems.length : Int) = s.partExpectedMap planId then do
    let ptn ← partToNode parts (s.partExpectedMap planId).toNat
    return { s with
      collectionMap := Function.update s.collectionMap collectionId (some ptn)
      updates := s.updates ++ [(collectionId, planId)] }
  else .ok s

def step (nodes : OrdSet Int) (s : DistributeManager C) :
    DistributeEvent C → Except DistributeCheck (DistributeManager C)
  | .distribute planId spec => s.distribute nodes planId spec
  | .deliver i =>
    let rest := { s with messages := s.messages.eraseIdx i }
    match s.messages[i]? with
    | none => .error .noMessage
    | some (.distribute node partId planId spec) => .ok (rest.create node partId planId spec)
    | some (.finish cid partId node planId) => rest.finishDistribute cid partId node planId

/-- Every plan has its own id and collection, and asks for a partition. -/
def Allowed (s : DistributeManager C) : DistributeEvent C → Prop
  | .distribute planId spec => 1 ≤ spec.numPartition ∧ planId ∉ s.started.map (·.1) ∧
      spec.collectionId ∉ s.started.map (·.2.collectionId)
  | .deliver _ => True

instance (s : DistributeManager C) : (e : DistributeEvent C) → Decidable (s.Allowed e)
  | .distribute planId spec => inferInstanceAs (Decidable (1 ≤ spec.numPartition ∧
      planId ∉ s.started.map (·.1) ∧ spec.collectionId ∉ s.started.map (·.2.collectionId)))
  | .deliver _ => inferInstanceAs (Decidable True)

/-- Nothing has been distributed yet. -/
structure Fresh (s : DistributeManager C) : Prop where
  distributeMap : ∀ c, s.distributeMap c = .empty
  updates : s.updates = []
  messages : s.messages = []
  partitions : ∀ k, s.partitions k = none
  started : s.started = []

/-! ## One plan -/

/-- The node whose turn a partition is. -/
def place (nodes : OrdSet Int) (p : Nat) : Int := nodes.elems.getD (p % nodes.elems.length) 0

def view (nodes : OrdSet Int) (n : Nat) : List Int := (List.range n).map (place nodes)

def planOf : DistributeMsg C → Int
  | .distribute _ _ planId _ => planId
  | .finish _ _ _ planId => planId

def partOf (planId : Int) : DistributeMsg C → Option Nat
  | .distribute _ p planId' _ => if planId' = planId then some p else none
  | .finish _ p _ planId' => if planId' = planId then some p else none

/-- The partitions that a message of the plan is under way for. -/
def flying (s : DistributeManager C) (planId : Int) : List Nat := s.messages.filterMap (partOf planId)

/-- A message of the plan. -/
def Sent (nodes : OrdSet Int) (s : DistributeManager C) (planId : Int)
    (spec : DistributeSpec (List C)) : DistributeMsg C → Prop
  | .distribute node p _ spec' => spec' = spec ∧ node = place nodes p
  | .finish cid p node _ => cid = spec.collectionId ∧ node = place nodes p ∧
      s.partitions (node, cid, p) = some (Distribute.createPart spec.data p spec.parts)

def finished (s : DistributeManager C) (spec : DistributeSpec (List C)) : List Nat :=
  (s.distributeMap spec.collectionId).keys.elems

/-- Every partition has a message under way or an entry; the entries and replies are of the node
whose turn it was, which has the partition; and the view is there with the last entry. -/
structure Holds (nodes : OrdSet Int) (init s : DistributeManager C) (planId : Int)
    (spec : DistributeSpec (List C)) : Prop where
  pos : 1 ≤ spec.numPartition
  expected : s.partExpectedMap planId = spec.numPartition
  account : (s.flying planId ++ s.finished spec).Perm (List.range spec.parts)
  sent : ∀ m ∈ s.messages, planOf m = planId → Sent nodes s planId spec m
  stored : ∀ p node, (s.distributeMap spec.collectionId).get? p = some node →
    node = place nodes p ∧
      s.partitions (node, spec.collectionId, p) = some (Distribute.createPart spec.data p spec.parts)
  only : ∀ p node, (s.partitions (node, spec.collectionId, p)).isSome → node = place nodes p
  map : s.collectionMap spec.collectionId =
    if (s.finished spec).length = spec.parts then some (view nodes spec.parts)
    else init.collectionMap spec.collectionId
  updates : s.updates.count (spec.collectionId, planId) =
    if (s.finished spec).length = spec.parts then 1 else 0

structure Inv (nodes : OrdSet Int) (init s : DistributeManager C) : Prop where
  plans : (s.started.map (·.1)).Nodup
  collections : (s.started.map (·.2.collectionId)).Nodup
  holds : ∀ e ∈ s.started, Holds nodes init s e.1 e.2
  known : ∀ m ∈ s.messages, ∃ e ∈ s.started, planOf m = e.1
  updates : ∀ u ∈ s.updates, ∃ e ∈ s.started, u.2 = e.1
  unused : ∀ c, c ∉ s.started.map (·.2.collectionId) → s.distributeMap c = .empty ∧
    s.collectionMap c = init.collectionMap c ∧ ∀ node p, s.partitions (node, c, p) = none

variable {nodes : OrdSet Int} {init s t : DistributeManager C} {planId : Int}
  {spec : DistributeSpec (List C)} {e e' : Int × DistributeSpec (List C)}

theorem Inv.of_fresh (h : init.Fresh) : Inv nodes init init where
  plans := by rw [h.started]; exact nodup_nil
  collections := by rw [h.started]; exact nodup_nil
  holds e he := by
    rw [h.started] at he
    exact absurd he not_mem_nil
  known m hm := by
    rw [h.messages] at hm
    exact absurd hm not_mem_nil
  updates u hu := by
    rw [h.updates] at hu
    exact absurd hu not_mem_nil
  unused c _ := ⟨h.distributeMap c, rfl, fun _ _ => h.partitions _⟩

/-- A collection belongs to one plan. -/
theorem Inv.eq_of_collection (h : Inv nodes init s) (he : e ∈ s.started) (he' : e' ∈ s.started)
    (hc : e.2.collectionId = e'.2.collectionId) :
    e = e' := inj_on_of_nodup_map h.collections he he' hc

theorem Inv.eq_of_plan (h : Inv nodes init s) (he : e ∈ s.started) (he' : e' ∈ s.started)
    (hp : e.1 = e'.1) : e = e' :=
  inj_on_of_nodup_map h.plans he he' hp

theorem partOf_of_ne {m : DistributeMsg C} (h : planOf m ≠ planId) : partOf planId m = none := by
  cases m with
  | distribute node p pid spec => exact if_neg h
  | finish cid p node pid => exact if_neg h

/-! ## Starting a plan -/

theorem place_eq (hne : nodes.elems ≠ []) (p : Nat) :
    nodes.elems[p % nodes.elems.length]? = some (place nodes p) := by
  have hlt := Nat.mod_lt p (length_pos_iff.mpr hne)
  unfold place
  rw [getD_eq_getElem _ _ hlt, getElem?_eq_getElem hlt]

/-- The commands go to the nodes in turn. -/
theorem send_ok (hne : nodes.elems ≠ []) (planId : Int) (spec : DistributeSpec (List C)) (n i : Nat) :
    send nodes.elems planId spec n i (i % nodes.elems.length) =
      .ok ((List.range' i n).map fun j => .distribute (place nodes j) j planId spec) := by
  induction n generalizing i with
  | zero => rfl
  | succ n ih =>
    have hpos := length_pos_iff.mpr hne
    have hnext : (if i % nodes.elems.length + 1 = nodes.elems.length then 0
        else i % nodes.elems.length + 1) = (i + 1) % nodes.elems.length := by
      rw [Nat.add_mod_eq_ite]
      have hlt := Nat.mod_lt i hpos
      by_cases hone : nodes.elems.length = 1
      · rw [hone]
        simp [Nat.mod_one]
      · rw [Nat.mod_eq_of_lt (show 1 < nodes.elems.length by omega)]
        split <;> split <;> omega
    unfold send
    rw [place_eq hne, hnext, ih (i + 1), List.range'_succ]
    rfl

theorem flying_sent (nodes : OrdSet Int) (planId pid : Int) (spec : DistributeSpec (List C)) (n : Nat) :
    ((List.range n).map fun j => DistributeMsg.distribute (place nodes j) j pid spec).filterMap
      (partOf planId) = if pid = planId then List.range n else [] := by
  rw [filterMap_map]
  split
  · next h =>
    have hsome : (partOf planId ∘ fun j => DistributeMsg.distribute (place nodes j) j pid spec) =
        some := by
      funext j
      exact if_pos h
    rw [hsome, filterMap_some]
  · next h =>
    have hnone : (partOf planId ∘ fun j => DistributeMsg.distribute (place nodes j) j pid spec) =
        fun _ => none := by
      funext j
      exact if_neg h
    rw [hnone, filterMap_eq_nil_iff.mpr fun _ _ => rfl]

/-- What `Distribute` does. -/
theorem distribute_eq (hne : nodes.elems ≠ []) (s : DistributeManager C) (planId : Int)
    (spec : DistributeSpec (List C)) :
    s.distribute nodes planId spec = .ok { s with
      partExpectedMap := update s.partExpectedMap planId spec.numPartition
      messages := s.messages ++ (List.range spec.parts).map fun j =>
        .distribute (place nodes j) j planId spec
      started := s.started ++ [(planId, spec)] } := by
  unfold distribute
  have hsend := send_ok hne planId spec spec.parts 0
  rw [Nat.zero_mod, ← range_eq_range'] at hsend
  rw [hsend]
  rfl

theorem Inv.distribute (h : Inv nodes init s) (hne : nodes.elems ≠ [])
    (ha : s.Allowed (.distribute planId spec)) (ht : s.distribute nodes planId spec = .ok t) :
    Inv nodes init t := by
  obtain ⟨hpos, hplan, hcid⟩ := ha
  rw [distribute_eq hne] at ht
  cases ht
  have hmsg : ∀ m ∈ s.messages ++ (List.range spec.parts).map fun j =>
      DistributeMsg.distribute (place nodes j) j planId spec,
      m ∈ s.messages ∨ ∃ j, m = .distribute (place nodes j) j planId spec := by
    intro m hm
    rcases mem_append.mp hm with hm | hm
    · exact .inl hm
    · obtain ⟨j, -, rfl⟩ := mem_map.mp hm
      exact .inr ⟨j, rfl⟩
  -- no message is of the new plan
  have hold : ∀ m ∈ s.messages, planOf m ≠ planId := by
    intro m hm heq
    obtain ⟨e, he, hme⟩ := h.known m hm
    exact hplan (heq ▸ hme ▸ mem_map_of_mem he)
  have hne' : ∀ e ∈ s.started, e.1 ≠ planId := fun e he heq => hplan (heq ▸ mem_map_of_mem he)
  refine ⟨?_, ?_, ?_, ?_, ?_, ?_⟩
  · show ((s.started ++ [(planId, spec)]).map (·.1)).Nodup
    rw [map_append]
    exact nodup_append'.mpr ⟨h.plans, nodup_singleton _, by simpa using hplan⟩
  · show ((s.started ++ [(planId, spec)]).map (·.2.collectionId)).Nodup
    rw [map_append]
    exact nodup_append'.mpr ⟨h.collections, nodup_singleton _, by simpa using hcid⟩
  · intro e he
    rcases mem_append.mp he with he | he
    · have hh := h.holds e he
      refine ⟨hh.pos, ?_, ?_, ?_, hh.stored, hh.only, hh.map, hh.updates⟩
      · exact (update_of_ne (hne' e he) _ _).trans hh.expected
      · show ((s.messages ++ _).filterMap (partOf e.1) ++ s.finished e.2).Perm _
        rw [filterMap_append, flying_sent, if_neg (hne' e he).symm, append_nil]
        exact hh.account
      · intro m hm hp
        rcases hmsg m hm with hm | ⟨j, rfl⟩
        · have hs := hh.sent m hm hp
          cases m with
          | distribute node p pid sp => exact hs
          | finish cid p node pid => exact hs
        · exact absurd hp.symm (hne' e he)
    · obtain rfl := mem_singleton.mp he
      obtain ⟨hempty, hmap, hparts⟩ := h.unused spec.collectionId hcid
      have hfin : (s.distributeMap spec.collectionId).keys.elems = [] := by
        rw [hempty]
        rfl
      have hcount : (s.distributeMap spec.collectionId).keys.elems.length ≠ spec.parts := by
        rw [hfin]
        unfold DistributeSpec.parts
        show 0 ≠ _
        omega
      refine ⟨hpos, update_self _ _ _, ?_, ?_, ?_, ?_, ?_, ?_⟩
      · show ((s.messages ++ _).filterMap (partOf planId) ++
          (s.distributeMap spec.collectionId).keys.elems).Perm _
        rw [filterMap_append, flying_sent, if_pos rfl, hfin, append_nil,
          filterMap_eq_nil_iff.mpr fun m hm => partOf_of_ne (hold m hm)]
        exact List.Perm.refl _
      · intro m hm hp
        rcases hmsg m hm with hm | ⟨j, rfl⟩
        · exact absurd hp (hold m hm)
        · exact ⟨rfl, rfl⟩
      · intro p node hget
        rw [show (s.distributeMap spec.collectionId) = .empty from hempty] at hget
        cases hget
      · intro p node hsome
        rw [show s.partitions (node, spec.collectionId, p) = none from hparts node p] at hsome
        cases hsome
      · exact hmap.trans (if_neg hcount).symm
      · refine Eq.trans ?_ (if_neg hcount).symm
        refine count_eq_zero.mpr fun hu => ?_
        obtain ⟨e, he, hue⟩ := h.updates _ hu
        exact hne' e he hue.symm
  · intro m hm
    rcases hmsg m hm with hm | ⟨j, rfl⟩
    · obtain ⟨e, he, hme⟩ := h.known m hm
      exact ⟨e, mem_append_left _ he, hme⟩
    · exact ⟨(planId, spec), mem_append_right _ mem_cons_self, rfl⟩
  · intro u hu
    obtain ⟨e, he, hue⟩ := h.updates u hu
    exact ⟨e, mem_append_left _ he, hue⟩
  · intro c hc
    refine h.unused c fun hx => hc ?_
    rw [map_append]
    exact mem_append_left _ hx

/-! ## Messages -/

/-- The plan of a message that is under way. -/
theorem Inv.sender (h : Inv nodes init s) {i : Nat} {m : DistributeMsg C}
    (hm : s.messages[i]? = some m) :
    ∃ e ∈ s.started, planOf m = e.1 ∧ Holds nodes init s e.1 e.2 ∧ Sent nodes s e.1 e.2 m := by
  have hmem := mem_of_getElem? hm
  obtain ⟨e, he, hme⟩ := h.known m hmem
  exact ⟨e, he, hme, h.holds e he, (h.holds e he).sent m hmem hme⟩

/-- The worker makes the partition. -/
theorem Inv.create (h : Inv nodes init s) {i p : Nat} {node : Int}
    (hm : s.messages[i]? = some (.distribute node p planId spec)) :
    Inv nodes init
      ({ s with messages := s.messages.eraseIdx i }.create node p planId spec) := by
  obtain ⟨e₀, he₀, hplan, -, hspec, hnode⟩ := h.sender hm
  obtain rfl : planId = e₀.1 := hplan
  subst hspec hnode
  -- a partition of another key stays, the one that is made is what it should be
  have hkeep : ∀ e ∈ s.started, ∀ node q, s.partitions (node, e.2.collectionId, q) =
        some (Distribute.createPart e.2.data q e.2.parts) →
      update s.partitions (place nodes p, e₀.2.collectionId, p)
        (some (Distribute.createPart e₀.2.data p e₀.2.parts)) (node, e.2.collectionId, q) =
        some (Distribute.createPart e.2.data q e.2.parts) := by
    intro e he node q hq
    by_cases hk : (node, e.2.collectionId, q) = (place nodes p, e₀.2.collectionId, p)
    · rw [update_apply, if_pos hk]
      obtain ⟨-, hk⟩ := Prod.mk.inj hk
      obtain ⟨hc, rfl⟩ := Prod.mk.inj hk
      rw [h.eq_of_collection he he₀ hc]
    · rw [update_of_ne hk]
      exact hq
  have hmem : ∀ m ∈ s.messages.eraseIdx i ++ [.finish e₀.2.collectionId p (place nodes p) e₀.1],
      m ∈ s.messages ∨ m = .finish e₀.2.collectionId p (place nodes p) e₀.1 := by
    intro m hm
    rcases mem_append.mp hm with hm | hm
    · exact .inl (mem_of_mem_eraseIdx hm)
    · exact .inr (mem_singleton.mp hm)
  refine ⟨h.plans, h.collections, ?_, ?_, h.updates, ?_⟩
  · intro e he
    have hh := h.holds e he
    refine ⟨hh.pos, hh.expected, ?_, ?_, ?_, ?_, hh.map, hh.updates⟩
    · refine List.Perm.trans (List.Perm.append_right _ ?_) hh.account
      show ((s.messages.eraseIdx i ++ [_]).filterMap (partOf e.1)).Perm (s.flying e.1)
      -- the reply is for the partition that the command was for
      refine ((perm_append_singleton _ _).filterMap _).trans ?_
      refine List.Perm.trans ?_ ((perm_cons_of_getElem? hm).filterMap _).symm
      rw [filterMap_cons, filterMap_cons]
      exact List.Perm.refl _
    · intro m hmm hp
      rcases hmem m hmm with hmm | rfl
      · have hs := hh.sent m hmm hp
        cases m with
        | distribute node q pid sp => exact hs
        | finish cid q node pid =>
          obtain ⟨rfl, hpl, hpart⟩ := hs
          exact ⟨rfl, hpl, hkeep e he node q hpart⟩
      · obtain rfl := h.eq_of_plan he₀ he hp
        exact ⟨rfl, rfl, update_self _ _ _⟩
    · intro q node hget
      obtain ⟨hpl, hpart⟩ := hh.stored q node hget
      exact ⟨hpl, hkeep e he node q hpart⟩
    · intro q node hsome
      change (update s.partitions (place nodes p, e₀.2.collectionId, p) _
        (node, e.2.collectionId, q)).isSome at hsome
      by_cases hk : (node, e.2.collectionId, q) = (place nodes p, e₀.2.collectionId, p)
      · obtain ⟨hn, hk⟩ := Prod.mk.inj hk
        obtain ⟨-, rfl⟩ := Prod.mk.inj hk
        exact hn
      · rw [update_of_ne hk] at hsome
        exact hh.only q node hsome
  · intro m hmm
    rcases hmem m hmm with hmm | rfl
    · exact h.known m hmm
    · exact ⟨e₀, he₀, rfl⟩
  · intro c hc
    obtain ⟨hempty, hmap, hparts⟩ := h.unused c hc
    refine ⟨hempty, hmap, fun node q => ?_⟩
    have hk : (node, c, q) ≠ (place nodes p, e₀.2.collectionId, p) := by
      intro hk
      obtain ⟨rfl, -⟩ := Prod.mk.inj (Prod.mk.inj hk).2
      exact hc (mem_map_of_mem he₀)
    exact (update_of_ne hk _ _).trans (hparts node q)

/-- All entries are there: the loop finds each of them. -/
theorem partToNode_ok {parts : OrdMap Nat Int} {n : Nat}
    (hkeys : parts.keys.elems.Perm (List.range n))
    (hget : ∀ p node, parts.get? p = some node → node = place nodes p) :
    partToNode parts n = .ok (view nodes n) := by
  refine mapM_ok _ fun p hp => ?_
  have hkey : p ∈ parts.keys := hkeys.mem_iff.mpr hp
  obtain ⟨node, hnode⟩ := Option.isSome_iff_exists.mp ((parts.mem_keys p).mp hkey)
  simp only [hnode]
  rw [hget p node hnode]

/-- What the scheduler does with a reply. -/
theorem Inv.finish_eq (h : Inv nodes init s) {i p : Nat} {cid node : Int}
    (hm : s.messages[i]? = some (.finish cid p node planId)) :
    ∃ e ∈ s.started, planId = e.1 ∧ cid = e.2.collectionId ∧
      { s with messages := s.messages.eraseIdx i }.finishDistribute cid p node planId =
        .ok { s with
          messages := s.messages.eraseIdx i
          distributeMap := update s.distributeMap cid ((s.distributeMap cid).set p node)
          collectionMap := update s.collectionMap cid
            (if (s.finished e.2).length + 1 = e.2.parts then some (view nodes e.2.parts)
              else s.collectionMap cid)
          updates := s.updates ++
            if (s.finished e.2).length + 1 = e.2.parts then [(cid, planId)] else [] } ∧
      ((s.distributeMap cid).set p node).keys.elems.Perm (p :: s.finished e.2) ∧
      ((s.messages.eraseIdx i).filterMap (partOf planId) ++
        ((s.distributeMap cid).set p node).keys.elems).Perm (List.range e.2.parts) := by
  obtain ⟨e, he, hplan, hh, hcid, hnode, hpart⟩ := h.sender hm
  obtain rfl : planId = e.1 := hplan
  subst hcid
  have hfly : (s.flying e.1).Perm (p :: (s.messages.eraseIdx i).filterMap (partOf e.1)) := by
    have hp : partOf e.1 (.finish e.2.collectionId p node e.1 : DistributeMsg C) = some p := if_pos rfl
    refine ((perm_cons_of_getElem? hm).filterMap _).trans ?_
    rw [filterMap_cons_some hp]
  have haccount : (p :: ((s.messages.eraseIdx i).filterMap (partOf e.1) ++ s.finished e.2)).Perm
      (List.range e.2.parts) := (hfly.append_right _).symm.trans hh.account
  -- the partition has no entry yet
  have hnew : p ∉ (s.distributeMap e.2.collectionId).keys := by
    intro hx
    have hnd := haccount.nodup_iff.mpr nodup_range
    exact (nodup_cons.mp hnd).1 (mem_append_right _ hx)
  have hkeys := OrdSet.perm_insert hnew
  have haccount' : ((s.messages.eraseIdx i).filterMap (partOf e.1) ++
      ((s.distributeMap e.2.collectionId).keys.insert p).elems).Perm (List.range e.2.parts) :=
    ((hkeys.append_left _).trans perm_middle).trans haccount
  refine ⟨e, he, rfl, rfl, ?_, hkeys, haccount'⟩
  have hlen : ((s.distributeMap e.2.collectionId).keys.insert p).elems.length =
      (s.finished e.2).length + 1 := hkeys.length_eq
  have hexp : s.partExpectedMap e.1 = e.2.parts := by
    have := hh.pos
    rw [hh.expected, DistributeSpec.parts]
    omega
  unfold finishDistribute
  simp only [OrdMap.keys_set, hlen, hexp, Int.toNat_natCast]
  by_cases hlast : (s.finished e.2).length + 1 = e.2.parts
  · have hall : ((s.distributeMap e.2.collectionId).set p node).keys.elems.Perm
        (List.range e.2.parts) := by
      have hnil : (s.messages.eraseIdx i).filterMap (partOf e.1) = [] := by
        have hl := haccount'.length_eq
        rw [length_append, hlen, length_range] at hl
        exact length_eq_zero_iff.mp (by omega)
      rw [hnil] at haccount'
      exact haccount'
    have hptn : partToNode ((s.distributeMap e.2.collectionId).set p node) e.2.parts =
        .ok (view nodes e.2.parts) := by
      refine partToNode_ok hall fun q node' hget => ?_
      rw [OrdMap.get?_set] at hget
      split at hget
      · next hq =>
        subst hq
        exact (Option.some.inj hget).symm.trans hnode
      · exact (hh.stored q node' hget).1
    rw [if_pos (by exact_mod_cast hlast), hptn, if_pos hlast, if_pos hlast]
    rfl
  · rw [if_neg (by exact_mod_cast hlast), if_neg hlast, if_neg hlast, update_eq_self,
      append_nil]

theorem Inv.finish (h : Inv nodes init s) {i p : Nat} {cid node : Int}
    (hm : s.messages[i]? = some (.finish cid p node planId))
    (ht : { s with messages := s.messages.eraseIdx i }.finishDistribute cid p node planId = .ok t) :
    Inv nodes init t := by
  obtain ⟨e₀, he₀, rfl, rfl, heq, hkeys, haccount⟩ := h.finish_eq hm
  rw [heq] at ht
  cases ht
  obtain ⟨-, -, -, hh₀, -, hnode, hpart⟩ : ∃ e ∈ s.started, e₀.1 = e.1 ∧ Holds nodes init s e₀.1 e₀.2 ∧
      Sent nodes s e₀.1 e₀.2 (.finish e₀.2.collectionId p node e₀.1) :=
    ⟨e₀, he₀, rfl, h.holds e₀ he₀, (h.holds e₀ he₀).sent _ (mem_of_getElem? hm) rfl⟩
  have hsub : ∀ m ∈ s.messages.eraseIdx i, m ∈ s.messages := fun m hm => mem_of_mem_eraseIdx hm
  have hlt : (s.finished e₀.2).length < e₀.2.parts := by
    have hl := haccount.length_eq
    rw [length_append, hkeys.length_eq, length_range, length_cons] at hl
    omega
  refine ⟨h.plans, h.collections, ?_, fun m hmm => h.known m (hsub m hmm), ?_, ?_⟩
  · intro e he
    have hh := h.holds e he
    by_cases heq : e = e₀
    · subst heq
      have hfin : update s.distributeMap e.2.collectionId
          ((s.distributeMap e.2.collectionId).set p node) e.2.collectionId =
          (s.distributeMap e.2.collectionId).set p node := update_self _ _ _
      have hlen : (update s.distributeMap e.2.collectionId
          ((s.distributeMap e.2.collectionId).set p node) e.2.collectionId).keys.elems.length =
          (s.finished e.2).length + 1 := by
        rw [hfin]
        exact hkeys.length_eq
      refine ⟨hh.pos, hh.expected, ?_, ?_, ?_, hh.only, ?_, ?_⟩
      · show ((s.messages.eraseIdx i).filterMap (partOf e.1) ++ (update s.distributeMap
          e.2.collectionId _ e.2.collectionId).keys.elems).Perm _
        rw [hfin]
        exact haccount
      · intro m hmm hp
        have hs := hh.sent m (hsub m hmm) hp
        cases m with
        | distribute node q pid sp => exact hs
        | finish cid q node pid => exact hs
      · intro q node' hget
        have hget : ((s.distributeMap e.2.collectionId).set p node).get? q = some node' := by
          rw [← hfin]
          exact hget
        rw [OrdMap.get?_set] at hget
        split at hget
        · next hq =>
          obtain rfl := Option.some.inj hget
          subst hq
          exact ⟨hnode, hpart⟩
        · exact hh.stored q node' hget
      · refine (update_self _ _ _).trans ?_
        show _ = if (update s.distributeMap e.2.collectionId _
          e.2.collectionId).keys.elems.length = _ then _ else _
        rw [hlen, hh.map, if_neg (by omega : ¬ (s.finished e.2).length = e.2.parts)]
      · show (s.updates ++ _).count _ = if (update s.distributeMap e.2.collectionId _
          e.2.collectionId).keys.elems.length = _ then _ else _
        rw [hlen, count_append, hh.updates, if_neg (by omega : ¬ (s.finished e.2).length = e.2.parts)]
        split
        · simp
        · simp
    · -- another plan has another collection
      have hc : e.2.collectionId ≠ e₀.2.collectionId := fun hc => heq (h.eq_of_collection he he₀ hc)
      have hp : e₀.1 ≠ e.1 := fun hp => heq (h.eq_of_plan he he₀ hp.symm)
      have hfin : update s.distributeMap e₀.2.collectionId
          ((s.distributeMap e₀.2.collectionId).set p node) e.2.collectionId =
          s.distributeMap e.2.collectionId := update_of_ne hc _ _
      refine ⟨hh.pos, hh.expected, ?_, ?_, ?_, hh.only, ?_, ?_⟩
      · show ((s.messages.eraseIdx i).filterMap (partOf e.1) ++ (update s.distributeMap
          e₀.2.collectionId _ e.2.collectionId).keys.elems).Perm _
        rw [hfin]
        refine List.Perm.trans (List.Perm.append_right _ ?_) hh.account
        have hnone : partOf e.1 (.finish e₀.2.collectionId p node e₀.1 : DistributeMsg C) = none :=
          if_neg hp
        refine List.Perm.trans ?_ ((perm_cons_of_getElem? hm).filterMap _).symm
        rw [filterMap_cons_none hnone]
      · intro m hmm hpm
        have hs := hh.sent m (hsub m hmm) hpm
        cases m with
        | distribute node q pid sp => exact hs
        | finish cid q node pid => exact hs
      · intro q node' hget
        have hget : (s.distributeMap e.2.collectionId).get? q = some node' := by
          rw [← hfin]
          exact hget
        exact hh.stored q node' hget
      · refine (update_of_ne hc _ _).trans ?_
        show _ = if (update s.distributeMap e₀.2.collectionId _
          e.2.collectionId).keys.elems.length = _ then _ else _
        rw [hfin]
        exact hh.map
      · show (s.updates ++ _).count _ = if (update s.distributeMap e₀.2.collectionId _
          e.2.collectionId).keys.elems.length = _ then _ else _
        have hcount : (if (s.finished e₀.2).length + 1 = e₀.2.parts
            then [(e₀.2.collectionId, e₀.1)] else []).count (e.2.collectionId, e.1) = 0 := by
          refine count_eq_zero.mpr fun hx => ?_
          split at hx
          · exact hc (Prod.mk.inj (mem_singleton.mp hx)).1
          · exact absurd hx not_mem_nil
        rw [hfin, count_append, hcount, Nat.add_zero]
        exact hh.updates
  · intro u hu
    rcases mem_append.mp hu with hu | hu
    · exact h.updates u hu
    · split at hu
      · obtain rfl := mem_singleton.mp hu
        exact ⟨e₀, he₀, rfl⟩
      · exact absurd hu not_mem_nil
  · intro c hc
    have hne : c ≠ e₀.2.collectionId := by
      rintro rfl
      exact hc (mem_map_of_mem he₀)
    obtain ⟨hempty, hmap, hparts⟩ := h.unused c hc
    exact ⟨(update_of_ne hne _ _).trans hempty, (update_of_ne hne _ _).trans hmap,
      hparts⟩

/-! ## Every run -/

theorem Inv.step (h : Inv nodes init s) (hne : nodes.elems ≠ []) {e : DistributeEvent C}
    (ha : s.Allowed e) (ht : step nodes s e = .ok t) : Inv nodes init t := by
  cases e with
  | distribute planId spec => exact h.distribute hne ha ht
  | deliver i =>
    unfold DistributeManager.step at ht
    simp only at ht
    split at ht
    · cases ht
    · next hm =>
      cases ht
      exact h.create hm
    · next hm => exact h.finish hm ht

theorem reachable_inv (hne : nodes.elems ≠ []) (h0 : init.Fresh)
    (hs : Reach (DistributeManager.step nodes) Allowed init s) : Inv nodes init s :=
  hs.induct (P := Inv nodes init) (.of_fresh h0) fun _ _ _ _ hi ha hstep => hi.step hne ha hstep

/-- A command is followed by a reply. -/
def weight : DistributeMsg C → Nat
  | .distribute .. => 2
  | .finish .. => 1

/-- The messages that are still to be delivered, with those they lead to. -/
def left (s : DistributeManager C) : Nat := (s.messages.map weight).sum

/-- A message under way is handled, and one less is left. -/
theorem Inv.deliver (h : Inv nodes init s) {i : Nat} (hi : i < s.messages.length) :
    ∃ t, DistributeManager.step nodes s (.deliver i) = .ok t ∧ t.left + 1 = s.left := by
  have hperm := perm_cons_of_getElem? (getElem?_eq_getElem hi)
  cases hm : s.messages[i] with
  | distribute node p planId spec =>
    have hget := (getElem?_eq_getElem hi).trans (congrArg some hm)
    refine ⟨{ s with messages := s.messages.eraseIdx i }.create node p planId spec, ?_, ?_⟩
    · unfold DistributeManager.step
      simp only [hget]
    · unfold left
      rw [(hperm.map weight).sum_eq, hm]
      show ((s.messages.eraseIdx i ++ [_]).map weight).sum + 1 = _
      rw [map_append, sum_append, map_cons, sum_cons]
      show _ + 1 + 1 = 2 + _
      exact Nat.add_comm _ 2
  | finish cid p node planId =>
    have hget := (getElem?_eq_getElem hi).trans (congrArg some hm)
    obtain ⟨e, -, -, -, heq, -⟩ := h.finish_eq hget
    have hstep : DistributeManager.step nodes s (.deliver i) =
        { s with messages := s.messages.eraseIdx i }.finishDistribute cid p node planId := by
      unfold DistributeManager.step
      simp only [hget]
    refine ⟨_, hstep.trans heq, ?_⟩
    unfold left
    rw [(hperm.map weight).sum_eq, hm]
    show ((s.messages.eraseIdx i).map weight).sum + 1 = _
    rw [map_cons, sum_cons]
    exact Nat.add_comm _ _

/-- The collection is where the view says it is, and it has been updated once. -/
structure Installed (nodes : OrdSet Int) (s : DistributeManager C) (planId : Int)
    (spec : DistributeSpec (List C)) : Prop where
  view : s.collectionMap spec.collectionId = some (view nodes spec.parts)
  created : ∀ p < spec.parts, s.partitions (place nodes p, spec.collectionId, p) =
    some (Distribute.createPart spec.data p spec.parts)
  only : ∀ p node, (s.partitions (node, spec.collectionId, p)).isSome → node = place nodes p
  updates : s.updates.count (spec.collectionId, planId) = 1

theorem Holds.installed (h : Holds nodes init s planId spec) (hfly : s.flying planId = []) :
    Installed nodes s planId spec := by
  have haccount := h.account
  rw [hfly, nil_append] at haccount
  have hlen : (s.finished spec).length = spec.parts :=
    haccount.length_eq.trans length_range
  refine ⟨h.map.trans (if_pos hlen), fun p hp => ?_, h.only, h.updates.trans (if_pos hlen)⟩
  have hkey : p ∈ (s.distributeMap spec.collectionId).keys :=
    haccount.mem_iff.mpr (mem_range.mpr hp)
  obtain ⟨node, hnode⟩ := Option.isSome_iff_exists.mp ((OrdMap.mem_keys _ p).mp hkey)
  obtain ⟨rfl, hpart⟩ := h.stored p node hnode
  exact hpart

theorem Holds.waiting (h : Holds nodes init s planId spec) (hfly : s.flying planId ≠ []) :
    s.collectionMap spec.collectionId = init.collectionMap spec.collectionId ∧
      s.updates.count (spec.collectionId, planId) = 0 := by
  have hlen : (s.finished spec).length ≠ spec.parts := by
    have hl := h.account.length_eq
    rw [length_append, length_range] at hl
    have hpos := length_pos_iff.mpr hfly
    omega
  exact ⟨h.map.trans (if_neg hlen), h.updates.trans (if_neg hlen)⟩

end DistributeManager

/-- A vector of three elements over two nodes: the replies come in the other order. -/
def twoWorkers : DistributeManager Nat where
  partExpectedMap _ := 0
  distributeMap _ := .empty
  collectionMap _ := none
  updates := []
  messages := []
  partitions _ := none
  started := []

end Tangram
