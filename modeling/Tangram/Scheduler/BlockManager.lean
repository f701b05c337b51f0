import Tangram.Io.Assigner
import Tangram.Lib.RoundRobin
import Tangram.Plan.Spec

/-!
# The block manager

`BlockManager` (`core/scheduler/block_manager.cpp`): each `Load` plan gets an assigner
of its own, which deals the blocks of the url to the nodes.  When the last block is
finished, the collection has a partition for each, on the node that loaded it.
-/

namespace Tangram

open StepRun List Function

variable {F H : Type} [LinearOrder F] [LinearOrder H]

/-- What the manager reads of an entry of `elem_->nodes`. -/
structure NodeInfo (H : Type) where
  hostname : H
  id : Int
  numLocalThreads : Int
deriving DecidableEq, Repr

/-- `updates` are the calls of `CollectionManager::Update`, with the plan that each finishes. -/
structure BlockManager (F H : Type) [LinearOrder F] [LinearOrder H] where
  assigners : Int → Option (Assigner F H)
  storedBlocks : Int → OrdMap Int (StoredBlock F)
  cidPid : Int → Int
  collectionMap : Int → Option (List Int)
  updates : List (Int × Int)

namespace BlockManager

def slavesOf (nodes : List (NodeInfo H)) : List (H × Int) := nodes.map fun n => (n.hostname, n.id)

/-- `browse` lists the blocks of a url. -/
def load (getIP : H → H) (browse : F → List (BlockInfo F H)) (nodes : List (NodeInfo H))
    (m : BlockManager F H) (planId : Int) (spec : LoadSpec F) :
    Except AssignerCheck (BlockManager F H) := do
  let (_, a) ← Assigner.fresh.load getIP (browse spec.url) spec.collectionId (slavesOf nodes)
    (nodes.map (·.numLocalThreads)) spec.isLoadMeta spec.isWholeFile
  return { m with
    assigners := Function.update m.assigners spec.collectionId (some a)
    cidPid := Function.update m.cidPid spec.collectionId planId }

/-- The node of every block, by id. -/
def partToNode (blocks : OrdMap Int (StoredBlock F)) : Except AssignerCheck (List Int) :=
  (List.range blocks.keys.elems.length).mapM fun i : Nat =>
    match blocks.get? (i : Int) with
    | none => .error .unknownBlock
    | some b => .ok b.nodeId

/-- `FinishBlock`, with the value of `done`. -/
def finishBlock (m : BlockManager F H) (block : FinishedBlock H) :
    Except AssignerCheck (Bool × BlockManager F H) :=
  match m.assigners block.collectionId with
  | none => .error .assigner
  | some a => do
    let (done, a) ← a.finishBlock block
    let m := { m with assigners := Function.update m.assigners block.collectionId (some a) }
    if done then
      let partToNode ← partToNode a.finishedBlocks
      return (true, { m with
        storedBlocks := Function.update m.storedBlocks block.collectionId a.finishedBlocks
        collectionMap := Function.update m.collectionMap block.collectionId (some partToNode)
        updates := m.updates ++ [(block.collectionId, m.cidPid block.collectionId)] })
    else return (false, m)

/-- A list of replies, with the values of `done`. -/
def finishBlocks (m : BlockManager F H) :
    List (FinishedBlock H) → Except AssignerCheck (List Bool × BlockManager F H)
  | [] => .ok ([], m)
  | r :: replies => do
    let (done, m) ← m.finishBlock r
    let (dones, m) ← m.finishBlocks replies
    return (done :: dones, m)

/-! ## The map of a finished collection -/

open Assigner (Finished)

variable {a : Assigner F H} {n : Nat} {cid : Int} {done : List (FinishedBlock H)}
  {infos : List (BlockInfo F H)} {nodes : List (NodeInfo H)}

/-- All replies are in: there is an entry for each, the node that sent it. -/
theorem partToNode_ok (h : Finished n done a)
    (hids : (done.map (·.blockId)).Perm ((List.range n).map Int.ofNat)) :
    ∃ ptn, partToNode a.finishedBlocks = .ok ptn ∧ ptn.length = n ∧
      ∀ r ∈ done, ptn[r.blockId.toNat]? = some r.nodeId := by
  have hnd : ((List.range n).map Int.ofNat).Nodup :=
    nodup_range.map fun _ _ he => Int.ofNat.inj he
  have hsize : a.finishedBlocks.keys.elems.length = n := by
    have hperm : a.finishedBlocks.keys.elems.Perm ((List.range n).map Int.ofNat) := by
      refine (perm_ext_iff_of_nodup a.finishedBlocks.keys.nodup hnd).mpr fun x => ?_
      rw [← OrdSet.mem_def, h.keys, hids.mem_iff]
    rw [hperm.length_eq, length_map, length_range]
  -- the node of a block is the node of its reply
  let g : Nat → Int := fun i => ((a.finishedBlocks.get? i).map (·.nodeId)).getD 0
  have hg : ∀ r ∈ done, g r.blockId.toNat = r.nodeId ∧ r.blockId.toNat < n := by
    intro r hr
    obtain ⟨i, hi, hid⟩ := mem_map.mp (hids.mem_iff.mp (mem_map_of_mem hr))
    obtain ⟨b, hb, hnode⟩ := h.nodes r hr
    rw [← hid] at hb ⊢
    refine ⟨?_, mem_range.mp hi⟩
    show ((a.finishedBlocks.get? (Int.ofNat i)).map (·.nodeId)).getD 0 = _
    rw [hb]
    exact hnode
  have hmap : partToNode a.finishedBlocks = .ok ((List.range n).map g) := by
    unfold partToNode
    rw [hsize]
    refine mapM_ok _ fun i hi => ?_
    obtain ⟨r, hr, hid⟩ := mem_map.mp (hids.mem_iff.mpr (mem_map_of_mem hi))
    obtain ⟨b, hb, -⟩ := h.nodes r hr
    rw [hid] at hb
    have hb : a.finishedBlocks.get? (i : Int) = some b := hb
    simp only [g, hb]
    rfl
  refine ⟨_, hmap, by rw [length_map, length_range], fun r hr => ?_⟩
  obtain ⟨hval, hlt⟩ := hg r hr
  rw [getElem?_map, getElem?_range hlt, Option.map_some, hval]

/-! ## All replies -/

/-- **One reply.**  Only the last one builds the map. -/
theorem finishBlock_ok {m : BlockManager F H} (ha : m.assigners cid = some a)
    (h : Finished n done a) {r : FinishedBlock H} (hcid : r.collectionId = cid)
    (hr : 0 ≤ r.blockId ∧ r.blockId < n) (hnew : r.blockId ∉ done.map (·.blockId))
    (hids : done.length + 1 = n → ((done ++ [r]).map (·.blockId)).Perm ((List.range n).map Int.ofNat)) :
    ∃ m' a', m.finishBlock r = .ok (decide (done.length + 1 = n), m') ∧
      m'.assigners cid = some a' ∧ Finished n (done ++ [r]) a' ∧
      (done.length + 1 = n → ∃ ptn, m'.collectionMap cid = some ptn ∧ ptn.length = n ∧
        ∀ r' ∈ done ++ [r], ptn[r'.blockId.toNat]? = some r'.nodeId) := by
  obtain ⟨a', hfin, h'⟩ := h.finishBlock hr hnew
  subst hcid
  by_cases hlast : done.length + 1 = n
  · obtain ⟨ptn, hptn, hlen, hnodes⟩ := partToNode_ok h' (hids hlast)
    have hfinish : m.finishBlock r = .ok (true, { m with
        assigners := update m.assigners r.collectionId (some a')
        storedBlocks := update m.storedBlocks r.collectionId a'.finishedBlocks
        collectionMap := update m.collectionMap r.collectionId (some ptn)
        updates := m.updates ++ [(r.collectionId, m.cidPid r.collectionId)] }) := by
      unfold BlockManager.finishBlock
      rw [ha]
      simp only
      rw [hfin, decide_eq_true hlast]
      show (partToNode a'.finishedBlocks >>= _) = _
      rw [hptn]
      rfl
    refine ⟨_, a', by rw [hfinish, decide_eq_true hlast], update_self _ _ _, h', fun _ => ?_⟩
    exact ⟨ptn, update_self _ _ _, hlen, hnodes⟩
  · have hfinish : m.finishBlock r = .ok (false, { m with
        assigners := update m.assigners r.collectionId (some a') }) := by
      unfold BlockManager.finishBlock
      rw [ha]
      simp only
      rw [hfin, decide_eq_false hlast]
      rfl
    exact ⟨_, a', by rw [hfinish, decide_eq_false hlast], update_self _ _ _, h',
      fun hl => absurd hl hlast⟩

theorem finishBlocks_ok (replies : List (FinishedBlock H)) :
    ∀ {m : BlockManager F H} {done : List (FinishedBlock H)} {a : Assigner F H},
      m.assigners cid = some a → Finished n done a → replies ≠ [] →
      (∀ r ∈ replies, r.collectionId = cid) →
      ((done ++ replies).map (·.blockId)).Perm ((List.range n).map Int.ofNat) →
      ∃ m' ptn, m.finishBlocks replies =
          .ok (List.replicate (replies.length - 1) false ++ [true], m') ∧
        m'.collectionMap cid = some ptn ∧ ptn.length = n ∧
        ∀ r ∈ done ++ replies, ptn[r.blockId.toNat]? = some r.nodeId := by
  induction replies with
  | nil =>
    intro m done a _ _ hne
    exact absurd rfl hne
  | cons r replies ih =>
    intro m done a ha h _ hcid hids
    have hlen : done.length + (replies.length + 1) = n := by
      have := hids.length_eq
      simpa using this
    have hmem : r.blockId ∈ (List.range n).map Int.ofNat := by
      refine hids.mem_iff.mp ?_
      rw [map_append]
      exact mem_append_right _ mem_cons_self
    obtain ⟨i, hi, hid⟩ := mem_map.mp hmem
    have hr : 0 ≤ r.blockId ∧ r.blockId < n := by
      have := mem_range.mp hi
      rw [← hid]
      exact ⟨Int.natCast_nonneg i, Int.ofNat_lt.mpr this⟩
    have hnd : ((done ++ r :: replies).map (·.blockId)).Nodup :=
      hids.nodup_iff.mpr (nodup_range.map fun _ _ he => Int.ofNat.inj he)
    have hnew : r.blockId ∉ done.map (·.blockId) := by
      intro hx
      rw [map_append] at hnd
      exact (nodup_append.mp hnd).2.2 _ hx _ mem_cons_self rfl
    have hshift : (done ++ [r]) ++ replies = done ++ r :: replies := by simp
    obtain ⟨m', a', hfin, ha', h', hlast⟩ := finishBlock_ok ha h (hcid r mem_cons_self) hr hnew
      fun hl => by
        have hnil : replies = [] := length_eq_zero_iff.mp (by omega)
        rw [hnil] at hids
        exact hids
    by_cases hnil : replies = []
    · subst hnil
      have hl : done.length + 1 = n := hlen
      obtain ⟨ptn, hmap, hptn, hnodes⟩ := hlast hl
      refine ⟨m', ptn, ?_, hmap, hptn, hnodes⟩
      unfold finishBlocks
      rw [hfin, decide_eq_true hl]
      rfl
    · have hpos := length_pos_iff.mpr hnil
      obtain ⟨m'', ptn, hrest, hmap, hptn, hnodes⟩ := ih ha' h' hnil
        (fun r' hr' => hcid r' (mem_cons_of_mem _ hr')) (by rwa [hshift])
      rw [hshift] at hnodes
      refine ⟨m'', ptn, ?_, hmap, hptn, hnodes⟩
      unfold finishBlocks
      rw [hfin, decide_eq_false (by omega)]
      show (m'.finishBlocks replies >>= _) = _
      rw [hrest]
      obtain ⟨k, hk⟩ : ∃ k, replies.length = k + 1 := ⟨replies.length - 1, by omega⟩
      rw [length_cons, hk]
      rfl

/-! ## Every load -/

/-- The number of the first `n` turns that slave `i` of `k` has. -/
def turnsOf (n k i : Nat) : Nat := (List.range n).countP fun j => j % k = i

theorem turnsOf_le {n k i i' : Nat} (hi : i < k) (hi' : i' < k) :
    turnsOf n k i ≤ turnsOf n k i' + 1 := RoundRobin.share_le hi hi'

/-- What `Load` sends: every block that is listed once, numbered in order, in turn to each node,
and to a node one of its own blocks as long as one is left. -/
structure Spread (getIP : H → H) (infos : List (BlockInfo F H)) (nodes : List (NodeInfo H))
    (sent : List (Int × AssignedBlock F)) : Prop where
  nodup : (sent.map (·.2.block)).Nodup
  all : ∀ p, p ∈ sent.map (·.2.block) ↔ ∃ b ∈ infos, b.block = p
  ids : sent.map (·.2.id) = (List.range sent.length).map Int.ofNat
  turns : sent.map (·.1) = (List.range sent.length).map fun j =>
    getWorkerQid ((nodes.map (·.id)).getD (j % nodes.length) 0)
  balanced : ∀ i < nodes.length, ∀ i' < nodes.length,
    turnsOf sent.length nodes.length i ≤ turnsOf sent.length nodes.length i' + 1
  nearby : ∀ j s n p, sent[j]? = some s → nodes[j % nodes.length]? = some n →
    p ∉ (sent.map (·.2.block)).take j → n.hostname ∈ Assigner.hostsOf getIP infos p →
    n.hostname ∈ Assigner.hostsOf getIP infos s.2.block

omit [LinearOrder H] in
/-- If no node is listed twice, the messages that two of them get differ by one at most. -/
theorem Spread.counts {getIP : H → H} {sent : List (Int × AssignedBlock F)}
    (h : Spread getIP infos nodes sent) (hnd : (nodes.map (·.id)).Nodup) {n n' : NodeInfo H}
    (hn : n ∈ nodes) (hn' : n' ∈ nodes) :
    sent.countP (fun s => s.1 = getWorkerQid n.id) ≤
      sent.countP (fun s => s.1 = getWorkerQid n'.id) + 1 := by
  have hcount : ∀ x ∈ nodes, ∃ i < nodes.length,
      sent.countP (fun s => s.1 = getWorkerQid x.id) = turnsOf sent.length nodes.length i := by
    intro x hx
    obtain ⟨i, hi, rfl⟩ := mem_iff_getElem.mp hx
    refine ⟨i, hi, ?_⟩
    have hmap : sent.countP (fun s => s.1 = getWorkerQid nodes[i].id) =
        (sent.map (·.1)).countP fun q => q = getWorkerQid nodes[i].id := by
      rw [countP_map]
      rfl
    rw [hmap, h.turns, countP_map, turnsOf]
    congr 1
    funext j
    have hlt : j % nodes.length < (nodes.map (·.id)).length := by
      rw [length_map]
      exact Nat.mod_lt j (Nat.zero_lt_of_lt hi)
    have hid : nodes[i].id = (nodes.map (·.id)).getD i 0 := by
      rw [getD_eq_getElem _ _ (by rwa [length_map]), getElem_map]
    have hiff : getWorkerQid ((nodes.map (·.id)).getD (j % nodes.length) 0) =
        getWorkerQid nodes[i].id ↔ j % nodes.length = i := by
      have hlt' : i < (nodes.map (·.id)).length := by rwa [length_map]
      rw [hid, getD_eq_getElem _ _ hlt, getD_eq_getElem _ _ hlt',
        ← @List.Nodup.getElem_inj_iff _ _ hnd _ hlt _ hlt']
      unfold getWorkerQid kMagic
      omega
    exact decide_eq_decide.mpr hiff
  obtain ⟨i, hi, hc⟩ := hcount n hn
  obtain ⟨i', hi', hc'⟩ := hcount n' hn'
  rw [hc, hc']
  exact h.balanced i hi i' hi'

theorem map_eq_map_range {α β : Type} {l : List α} {f : α → β} {g : Nat → β}
    (h : ∀ j x, l[j]? = some x → f x = g j) : l.map f = (range l.length).map g := by
  refine ext_getElem (by rw [length_map, length_map, length_range]) fun j hj _ => ?_
  rw [getElem_map, getElem_map, getElem_range]
  exact h j _ (getElem?_eq_getElem _)

open Assigner (Dealt initBlocks hostsOf Inverse)

theorem spread_of_dealt {getIP : H → H} (hnodes : nodes ≠ [])
    (h : Dealt cid (slavesOf nodes) (initBlocks getIP infos .fresh).blocks a n)
    (hnil : a.blocks.keys.elems = []) : Spread getIP infos nodes a.sent := by
  have hpos := length_pos_iff.mpr hnodes
  have hlen : (slavesOf nodes).length = nodes.length := length_map _
  have hget : ∀ p, (initBlocks getIP infos (.fresh : Assigner F H)).blocks.get? p =
      if hostsOf getIP infos p = [] then none else some (hostsOf getIP infos p) :=
    Assigner.get?_initBlocks getIP infos rfl
  -- the node of a turn
  have hwhose : ∀ j slave, (slavesOf nodes)[j % (slavesOf nodes).length]? = some slave →
      ∃ x, nodes[j % nodes.length]? = some x ∧ slave = (x.hostname, x.id) := by
    intro j slave hj
    rw [hlen, slavesOf, List.getElem?_map, Option.map_eq_some_iff] at hj
    obtain ⟨x, hx, rfl⟩ := hj
    exact ⟨x, hx, rfl⟩
  refine ⟨h.nodup, fun p => ?_, ?_, ?_, fun i hi i' hi' => turnsOf_le hi hi', ?_⟩
  · have hlisted : hostsOf getIP infos p ≠ [] ↔ _ := Assigner.hostsOf_ne_nil
    rw [← hlisted]
    constructor
    · intro hp hx
      have hkey := (OrdMap.mem_keys _ p).mp (h.known p hp)
      rw [hget, if_pos hx] at hkey
      cases hkey
    · intro hx
      -- a block that was not sent would be left
      by_contra hp
      have hrest := (h.rest p).trans (if_neg hp)
      rw [hget, if_neg hx] at hrest
      have hkey : p ∈ a.blocks.keys := by
        rw [a.blocks.mem_keys, hrest]
        rfl
      rw [OrdSet.mem_def, hnil] at hkey
      exact absurd hkey not_mem_nil
  · refine map_eq_map_range fun j x hj => ?_
    obtain ⟨slave, hturn⟩ := h.turns j x hj
    exact hturn.id
  · refine map_eq_map_range fun j x hj => ?_
    obtain ⟨slave, hturn⟩ := h.turns j x hj
    obtain ⟨y, hy, rfl⟩ := hwhose j slave hturn.whose
    rw [hturn.recver, getD_eq_getElem?_getD, List.getElem?_map, hy]
    rfl
  · intro j x y p hj hy hp hlocal
    obtain ⟨slave, hturn⟩ := h.turns j x hj
    obtain ⟨y', hy', rfl⟩ := hwhose j slave hturn.whose
    cases Option.some.inj (hy.symm.trans hy')
    have hne : hostsOf getIP infos p ≠ [] := ne_nil_of_mem hlocal
    obtain ⟨locs, hlocs, hmem⟩ := hturn.nearby p (hostsOf getIP infos p) hp
      (by rw [hget, if_neg hne]) hlocal
    rw [hget] at hlocs
    split at hlocs
    · cases hlocs
    · rwa [Option.some.inj hlocs]

theorem finished_of_dealt {slaves : List (H × Int)} {blocks : OrdMap (Block F) (List H)}
    {cid : Int} {a : Assigner F H} {n : Nat} (h : Dealt cid slaves blocks a n)
    (hnil : a.blocks.keys.elems = []) (hfin : a.finishedBlocks = .empty) (hnum : a.numFinished = 0)
    (hexp : a.expectedNumFinished = n) : Finished n [] a := by
  refine ⟨hnil, hnum, hexp, fun x => ?_, fun x => ?_, fun r hr => absurd hr not_mem_nil⟩
  · rw [h.assigned]
    exact ⟨fun hx => ⟨hx, not_mem_nil⟩, fun hx => hx.1⟩
  · rw [hfin]
    exact ⟨fun hx => absurd hx (OrdSet.notMem_empty x), fun hx => absurd hx not_mem_nil⟩

/-- Three blocks, one of them on both hosts and listed twice on the first. -/
def replicated : List (BlockInfo Nat Nat) :=
  [⟨0, 0, 10⟩, ⟨0, 0, 20⟩, ⟨0, 64, 20⟩, ⟨0, 0, 10⟩, ⟨7, 0, 30⟩]

def twoNodes : List (NodeInfo Nat) := [⟨20, 1, 4⟩, ⟨10, 2, 4⟩]

def noBlocks : BlockManager Nat Nat where
  assigners _ := none
  storedBlocks _ := .empty
  cidPid _ := 0
  collectionMap _ := none
  updates := []

end BlockManager

end Tangram
