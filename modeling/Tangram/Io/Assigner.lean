import Tangram.Lib.OrdMap
import Tangram.Lib.Run
import Tangram.Worker.Control

/-!
# The assigner of blocks

`Assigner` (`io/assigner.cpp`): the blocks that the browser lists are dealt to the
slaves round robin, to each one of its own blocks as long as there is one.  File
and host names are of any ordered type; `getIP` resolves the names of the browser,
and counters do not overflow.

`locality_map_` and `blocks_` are kept inverse (`Inverse`), and so a deal always
succeeds (`assign_cases`).  A whole `Load` is described by `Dealt`, which holds
after every turn.
-/

namespace Tangram

open StepRun List OrdMap

/-! ## Records -/

/-- A file and an offset, ordered as `std::pair`. -/
abbrev Block (F : Type) : Type := F ×ₗ Nat

structure BlockInfo (F H : Type) where
  filename : F
  offset : Nat
  hostname : H
deriving DecidableEq, Repr

def BlockInfo.block {F H : Type} (b : BlockInfo F H) : Block F := toLex (b.filename, b.offset)

structure AssignedBlock (F : Type) where
  url : F
  offset : Nat
  id : Int
  collectionId : Int
  isLoadMeta : Bool
  isWholeFile : Bool
deriving DecidableEq, Repr

def AssignedBlock.block {F : Type} (b : AssignedBlock F) : Block F := toLex (b.url, b.offset)

structure StoredBlock (F : Type) where
  url : F
  offset : Nat
  nodeId : Int
deriving DecidableEq, Repr

structure FinishedBlock (H : Type) where
  blockId : Int
  nodeId : Int
  hostname : H
  collectionId : Int
deriving DecidableEq, Repr

def getWorkerQid (nid : Int) : Int := nid * kMagic

inductive AssignerCheck
  | sizes | index | suc
  | found | locs
  | assigned
  | assigner | unknownBlock
deriving DecidableEq, Repr

/-- `sent` are the messages with their receivers. -/
structure Assigner (F H : Type) [LinearOrder F] [LinearOrder H] where
  localityMap : OrdMap H (OrdSet (Block F))
  blocks : OrdMap (Block F) (List H)
  assignedBlocks : OrdMap Int (Block F)
  finishedBlocks : OrdMap Int (StoredBlock F)
  blockId : Int
  numFinished : Int
  numAssigned : Int
  expectedNumFinished : Int
  isLoadMeta : Bool
  isWholeFile : Bool
  localityCount : Int × Int
  sent : List (Int × AssignedBlock F)

namespace Assigner

variable {F H : Type} [LinearOrder F] [LinearOrder H] {a : Assigner F H} (getIP : H → H)
  (infos : List (BlockInfo F H))

/-- As it is built. -/
def fresh : Assigner F H where
  localityMap := .empty
  blocks := .empty
  assignedBlocks := .empty
  finishedBlocks := .empty
  blockId := 0
  numFinished := 0
  numAssigned := 0
  expectedNumFinished := 0
  isLoadMeta := false
  isWholeFile := false
  localityCount := (0, 0)
  sent := []

/-! ## Functions -/

/-- `m.insert({k, v})`: an entry that is there stays. -/
def insertNew {κ α : Type} [LinearOrder κ] (m : OrdMap κ α) (k : κ) (a : α) : OrdMap κ α :=
  if k ∈ m.keys then m else m.set k a

def initBlock (getIP : H → H) (a : Assigner F H) (b : BlockInfo F H) : Assigner F H :=
  let h := getIP b.hostname
  { a with
    localityMap := a.localityMap.set h ((a.localityMap.getD h .empty).insert b.block)
    blocks := a.blocks.set b.block (a.blocks.getD b.block [] ++ [h]) }

def initBlocks (getIP : H → H) (infos : List (BlockInfo F H)) (a : Assigner F H) : Assigner F H :=
  infos.foldl (initBlock getIP) a

/-- `for (auto loc : locs) locality_map_[loc].erase(block)`. -/
def eraseLocality (m : OrdMap H (OrdSet (Block F))) (block : Block F) (locs : List H) :
    OrdMap H (OrdSet (Block F)) :=
  locs.foldl (fun m loc => m.set loc ((m.getD loc .empty).erase block)) m

/-- `block` is sent to the slave and removed. -/
def give (a : Assigner F H) (collectionId : Int) (slave : H × Int) (block : Block F)
    (isLocal : Bool) (locs : List H) : Assigner F H :=
  { a with
    localityCount := if isLocal then (a.localityCount.1 + 1, a.localityCount.2)
      else (a.localityCount.1, a.localityCount.2 + 1)
    sent := a.sent ++ [(getWorkerQid slave.2, {
      url := (ofLex block).1
      offset := (ofLex block).2
      id := a.blockId
      collectionId := collectionId
      isLoadMeta := a.isLoadMeta
      isWholeFile := a.isWholeFile })]
    blockId := a.blockId + 1
    localityMap := eraseLocality a.localityMap block locs
    blocks := a.blocks.erase block
    numAssigned := a.numAssigned + 1
    assignedBlocks := insertNew a.assignedBlocks a.blockId block }

/-- The block for a slave, and whether it is local; `first` is the first of `blocks_`. -/
def pick (a : Assigner F H) (host : H) (first : Block F) : Block F × Bool :=
  match (a.localityMap.getD host .empty).elems with
  | [] => (first, false)
  | block :: _ => (block, true)

def assign (a : Assigner F H) (collectionId : Int) (slave : H × Int) :
    Except AssignerCheck (Bool × Assigner F H) :=
  match a.blocks.keys.elems with
  | [] => .ok (false, a)
  | first :: _ =>
    match a.blocks.get? (a.pick slave.1 first).1 with
    | none => .error .found
    | some locs => do
      check .locs (0 < locs.length)
      return (true, a.give collectionId slave (a.pick slave.1 first).1 (a.pick slave.1 first).2 locs)

/-- The loop of `Load`; `size` is `num_local_threads.size()`. -/
def deal (collectionId : Int) (slaves : List (H × Int)) (size : Nat) :
    Nat → Nat → Assigner F H → Except AssignerCheck (Assigner F H)
  | 0, _, a => .ok a
  | toAssign + 1, index, a =>
    match slaves[index]? with
    | none => .error .index
    | some slave => do
      let (suc, a) ← a.assign collectionId slave
      check .suc (suc = true)
      deal collectionId slaves size toAssign ((index + 1) % size) a

/-- `infos` is what the browser lists for the url. -/
def load (getIP : H → H) (infos : List (BlockInfo F H)) (a : Assigner F H) (collectionId : Int)
    (slaves : List (H × Int)) (numLocalThreads : List Int) (isLoadMeta isWholeFile : Bool) :
    Except AssignerCheck (Int × Assigner F H) := do
  check .sizes (slaves.length = numLocalThreads.length)
  let a := initBlocks getIP infos { a with isLoadMeta := isLoadMeta, isWholeFile := isWholeFile }
  let a := { a with
    numFinished := 0
    numAssigned := 0
    expectedNumFinished := a.blocks.keys.elems.length }
  let a ← deal collectionId slaves numLocalThreads.length a.blocks.keys.elems.length 0 a
  return (a.expectedNumFinished, a)

/-- Whether all blocks are finished. -/
def finishBlock (a : Assigner F H) (block : FinishedBlock H) :
    Except AssignerCheck (Bool × Assigner F H) :=
  match a.assignedBlocks.get? block.blockId with
  | none => .error .assigned
  | some b => do
    let a := { a with
      assignedBlocks := a.assignedBlocks.erase block.blockId
      finishedBlocks := insertNew a.finishedBlocks block.blockId
        ⟨(ofLex b).1, (ofLex b).2, block.nodeId⟩
      numFinished := a.numFinished + 1 }
    if a.numFinished = a.expectedNumFinished then return (true, a)
    else
      let (_, a) ← a.assign block.collectionId (block.hostname, block.nodeId)
      return (false, a)

/-! ## The two maps are inverse -/

structure Inverse (a : Assigner F H) : Prop where
  locality : ∀ p h, p ∈ a.localityMap.getD h .empty ↔ ∃ locs, a.blocks.get? p = some locs ∧ h ∈ locs
  hosts : ∀ p locs, a.blocks.get? p = some locs → locs ≠ []

theorem inverse_fresh : Inverse (fresh : Assigner F H) where
  locality p h := by
    constructor
    · intro hp
      exact absurd hp (OrdSet.notMem_empty p)
    · rintro ⟨locs, hget, -⟩
      cases hget
  hosts p locs hget := by cases hget

theorem Inverse.initBlock (h : Inverse a) (getIP : H → H) (b : BlockInfo F H) :
    Inverse (initBlock getIP a b) := by
  have hold : ∀ h', h' ∈ a.blocks.getD b.block [] ↔ b.block ∈ a.localityMap.getD h' .empty := by
    intro h'
    rw [h.locality]
    unfold OrdMap.getD
    cases hget : a.blocks.get? b.block with
    | none => simp
    | some locs => simp
  refine ⟨fun p h' => ?_, fun p locs hget => ?_⟩
  · show p ∈ (a.localityMap.set _ _).getD h' .empty ↔
      ∃ locs, (a.blocks.set _ _).get? p = some locs ∧ h' ∈ locs
    rw [OrdMap.getD_set, OrdMap.get?_set]
    by_cases hp : p = b.block
    · rw [if_pos hp, hp]
      simp only [Option.some.injEq, exists_eq_left', mem_append, mem_singleton, hold]
      by_cases hh : h' = getIP b.hostname
      · rw [if_pos hh]
        simp [hh]
      · rw [if_neg hh]
        simp [hh]
    · rw [if_neg hp, ← h.locality]
      by_cases hh : h' = getIP b.hostname
      · rw [if_pos hh, OrdSet.mem_insert, hh]
        exact ⟨fun hor => hor.resolve_left hp, .inr⟩
      · rw [if_neg hh]
  · have hget : (a.blocks.set b.block (a.blocks.getD b.block [] ++ [getIP b.hostname])).get? p =
      some locs := hget
    rw [OrdMap.get?_set] at hget
    by_cases hp : p = b.block
    · rw [if_pos hp] at hget
      rw [← Option.some.inj hget]
      simp
    · rw [if_neg hp] at hget
      exact h.hosts p locs hget

theorem Inverse.initBlocks (h : Inverse a) (getIP : H → H) (infos : List (BlockInfo F H)) :
    Inverse (initBlocks getIP infos a) := by
  induction infos generalizing a with
  | nil => exact h
  | cons b infos ih => exact ih (h.initBlock getIP b)

theorem mem_eraseLocality (locs : List H) (m : OrdMap H (OrdSet (Block F))) (block p : Block F)
    (h : H) : p ∈ (eraseLocality m block locs).getD h .empty ↔
      p ∈ m.getD h .empty ∧ (p = block → h ∉ locs) := by
  induction locs generalizing m with
  | nil =>
    show p ∈ m.getD h .empty ↔ _
    simp
  | cons loc locs ih =>
    show p ∈ (eraseLocality (m.set loc ((m.getD loc .empty).erase block)) block locs).getD h .empty ↔ _
    rw [ih, getD_set]
    by_cases hh : h = loc
    · subst hh
      rw [if_pos rfl, OrdSet.mem_erase]
      simp only [mem_cons, not_or, not_true, false_and]
      constructor
      · rintro ⟨⟨hne, hp⟩, -⟩
        exact ⟨hp, fun he => absurd he hne⟩
      · rintro ⟨hp, hne⟩
        exact ⟨⟨fun he => hne he, hp⟩, fun he => (hne he).elim⟩
    · rw [if_neg hh, mem_cons, not_or]
      exact and_congr_right fun _ =>
        ⟨fun h' he => ⟨hh, h' he⟩, fun h' he => (h' he).2⟩

theorem Inverse.give {a : Assigner F H} (h : Inverse a) {block : Block F} {locs : List H}
    (hget : a.blocks.get? block = some locs) (collectionId : Int) (slave : H × Int)
    (isLocal : Bool) : Inverse (a.give collectionId slave block isLocal locs) := by
  refine ⟨fun p h' => ?_, fun p locs' hget' => ?_⟩
  · show p ∈ (eraseLocality a.localityMap block locs).getD h' .empty ↔
      ∃ locs', (a.blocks.erase block).get? p = some locs' ∧ h' ∈ locs'
    rw [mem_eraseLocality, get?_erase, h.locality]
    by_cases hp : p = block
    · subst hp
      rw [if_pos rfl, hget]
      simp
    · rw [if_neg hp]
      exact ⟨fun hx => hx.1, fun hx => ⟨hx, fun he => absurd he hp⟩⟩
  · have hget' : (a.blocks.erase block).get? p = some locs' := hget'
    rw [get?_erase] at hget'
    split at hget'
    · cases hget'
    · exact h.hosts p locs' hget'

/-- **One `Assign`.**  Nothing is left, or a block is given, a local one if there is one. -/
theorem Inverse.assign (h : Inverse a) (collectionId : Int) (slave : H × Int) :
    (a.blocks.keys.elems = [] ∧ a.assign collectionId slave = .ok (false, a)) ∨
      ∃ block locs isLocal, a.blocks.get? block = some locs ∧
        (∀ p locs', a.blocks.get? p = some locs' → slave.1 ∈ locs' → slave.1 ∈ locs) ∧
        a.assign collectionId slave = .ok (true, a.give collectionId slave block isLocal locs) := by
  cases hkeys : a.blocks.keys.elems with
  | nil =>
    left
    refine ⟨rfl, ?_⟩
    unfold Assigner.assign
    rw [hkeys]
  | cons first rest =>
    right
    -- the block that is picked is there, and local if any is
    obtain ⟨locs, hget, hlocal⟩ : ∃ locs, a.blocks.get? (a.pick slave.1 first).1 = some locs ∧
        ∀ p locs', a.blocks.get? p = some locs' → slave.1 ∈ locs' → slave.1 ∈ locs := by
      unfold pick
      cases helems : (a.localityMap.getD slave.1 .empty).elems with
      | nil =>
        have hmem : first ∈ a.blocks.keys := by
          rw [OrdSet.mem_def, hkeys]
          exact mem_cons_self
        obtain ⟨locs, hget⟩ := Option.isSome_iff_exists.mp ((a.blocks.mem_keys first).mp hmem)
        refine ⟨locs, hget, fun p locs' hp hs => ?_⟩
        have := (h.locality p slave.1).mpr ⟨locs', hp, hs⟩
        rw [OrdSet.mem_def, helems] at this
        exact absurd this not_mem_nil
      | cons block rest' =>
        have hmem : block ∈ a.localityMap.getD slave.1 .empty := by
          rw [OrdSet.mem_def, helems]
          exact mem_cons_self
        obtain ⟨locs, hget, hs⟩ := (h.locality block slave.1).mp hmem
        exact ⟨locs, hget, fun _ _ _ _ => hs⟩
    refine ⟨_, locs, (a.pick slave.1 first).2, hget, hlocal, ?_⟩
    unfold Assigner.assign
    rw [hkeys]
    simp only
    rw [hget]
    simp only
    rw [check_pos (length_pos_iff.mpr (h.hosts _ locs hget))]
    rfl

/-- Any number of calls. -/
def assigns (a : Assigner F H) (calls : List (Int × H × Int)) :
    Except AssignerCheck (Assigner F H) :=
  calls.foldlM (fun a c => do
    let (_, a) ← a.assign c.1 c.2
    return a) a

theorem Inverse.assigns (h : Inverse a) (calls : List (Int × H × Int)) :
    ∃ a', a.assigns calls = .ok a' ∧ Inverse a' := by
  induction calls generalizing a with
  | nil => exact ⟨a, rfl, h⟩
  | cons c calls ih =>
    unfold Assigner.assigns at ih ⊢
    rw [foldlM_cons]
    rcases h.assign c.1 c.2 with ⟨-, hassign⟩ | ⟨block, locs, isLocal, hget, -, hassign⟩
    · rw [hassign]
      exact ih h
    · rw [hassign]
      exact ih (h.give hget c.1 c.2 isLocal)

/-! ## What the browser listed -/

/-- The hosts of a block, one for each time it is listed. -/
def hostsOf (getIP : H → H) (infos : List (BlockInfo F H)) (p : Block F) : List H :=
  (infos.filter fun b => b.block = p).map fun b => getIP b.hostname

theorem initBlocks_concat (b : BlockInfo F H) (a : Assigner F H) :
    initBlocks getIP (infos ++ [b]) a = initBlock getIP (initBlocks getIP infos a) b :=
  foldl_concat ..

theorem get?_initBlocks (ha : a.blocks = .empty) (p : Block F) :
    (initBlocks getIP infos a).blocks.get? p =
      if hostsOf getIP infos p = [] then none else some (hostsOf getIP infos p) := by
  induction infos using List.reverseRecOn with
  | nil =>
    show a.blocks.get? p = _
    rw [ha]
    rfl
  | append_singleton infos b ih =>
    have hhosts : hostsOf getIP (infos ++ [b]) p =
        hostsOf getIP infos p ++ if b.block = p then [getIP b.hostname] else [] := by
      unfold hostsOf
      rw [filter_append, map_append]
      congr 1
      by_cases hb : b.block = p <;> simp [hb]
    have hgetD : (initBlocks getIP infos a).blocks.getD p [] = hostsOf getIP infos p := by
      unfold OrdMap.getD
      rw [ih]
      split
      · next hnil => exact hnil.symm
      · rfl
    rw [initBlocks_concat, hhosts]
    show ((initBlocks getIP infos a).blocks.set b.block _).get? p = _
    rw [OrdMap.get?_set]
    by_cases hb : p = b.block
    · subst hb
      rw [if_pos rfl, if_pos rfl, hgetD, if_neg (by simp)]
    · rw [if_neg hb, if_neg (Ne.symm hb), append_nil]
      exact ih

omit [LinearOrder H] in
theorem hostsOf_ne_nil {getIP : H → H} {infos : List (BlockInfo F H)} {p : Block F} :
    hostsOf getIP infos p ≠ [] ↔ ∃ b ∈ infos, b.block = p := by
  unfold hostsOf
  rw [Ne, map_eq_nil_iff, filter_eq_nil_iff]
  simp

/-- The rest of the assigner is left alone. -/
theorem initBlocks_eq (a : Assigner F H) :
    ∃ l b, initBlocks getIP infos a = { a with localityMap := l, blocks := b } := by
  induction infos generalizing a with
  | nil => exact ⟨a.localityMap, a.blocks, rfl⟩
  | cons x infos ih =>
    obtain ⟨l, b, h⟩ := ih (initBlock getIP a x)
    exact ⟨l, b, h⟩

theorem initBlocks_with (a : Assigner F H) (isLoadMeta isWholeFile : Bool) :
    initBlocks getIP infos { a with isLoadMeta := isLoadMeta, isWholeFile := isWholeFile } =
      { initBlocks getIP infos a with isLoadMeta := isLoadMeta, isWholeFile := isWholeFile } := by
  induction infos generalizing a with
  | nil => rfl
  | cons x infos ih => exact ih (initBlock getIP a x)

/-! ## A deal -/

section Deal

variable {collectionId : Int} {slaves : List (H × Int)} {blocks : OrdMap (Block F) (List H)}
  {a : Assigner F H} {i : Nat}

/-- The blocks that were sent. -/
def given (a : Assigner F H) : List (Block F) := a.sent.map fun s => s.2.block

/-- Message `s` was the `j`-th: it went to the slave whose turn it was, and its block is local to
the slave if one that was left is. -/
structure Turn (collectionId : Int) (slaves : List (H × Int)) (blocks : OrdMap (Block F) (List H))
    (given : List (Block F)) (j : Nat) (s : Int × AssignedBlock F) (slave : H × Int) : Prop where
  whose : slaves[j % slaves.length]? = some slave
  recver : s.1 = getWorkerQid slave.2
  id : s.2.id = j
  collection : s.2.collectionId = collectionId
  nearby : ∀ p locs, p ∉ given.take j → blocks.get? p = some locs → slave.1 ∈ locs →
    ∃ locs', blocks.get? s.2.block = some locs' ∧ slave.1 ∈ locs'

/-- After `i` turns of a deal of `blocks`. -/
structure Dealt (collectionId : Int) (slaves : List (H × Int)) (blocks : OrdMap (Block F) (List H))
    (a : Assigner F H) (i : Nat) : Prop where
  inverse : Inverse a
  length : a.sent.length = i
  blockId : a.blockId = i
  rest : ∀ p, a.blocks.get? p = if p ∈ a.given then none else blocks.get? p
  nodup : a.given.Nodup
  known : ∀ p ∈ a.given, p ∈ blocks.keys
  turns : ∀ j s, a.sent[j]? = some s → ∃ slave, Turn collectionId slaves blocks a.given j s slave
  assigned : ∀ x, x ∈ a.assignedBlocks.keys ↔ 0 ≤ x ∧ x < i

theorem given_give (collectionId : Int) (a : Assigner F H) (slave : H × Int) (block : Block F) (isLocal : Bool)
    (locs : List H) :
    (a.give collectionId slave block isLocal locs).given = a.given ++ [block] := by
  show (a.sent ++ [_]).map _ = _
  rw [map_append]
  rfl

theorem mem_keys_insertNew {κ α : Type} [LinearOrder κ] {m : OrdMap κ α} {k k' : κ} {v : α} :
    k' ∈ (insertNew m k v).keys ↔ k' = k ∨ k' ∈ m.keys := by
  unfold insertNew
  split
  · next h =>
    refine ⟨.inr, ?_⟩
    rintro (rfl | h')
    · exact h
    · exact h'
  · rw [keys_set, OrdSet.mem_insert]

theorem Dealt.give (h : Dealt collectionId slaves blocks a i) {slave : H × Int}
    (hslave : slaves[i % slaves.length]? = some slave) {block : Block F} {locs : List H}
    (hget : a.blocks.get? block = some locs)
    (hlocal : ∀ p locs', a.blocks.get? p = some locs' → slave.1 ∈ locs' → slave.1 ∈ locs)
    (isLocal : Bool) :
    Dealt collectionId slaves blocks (a.give collectionId slave block isLocal locs) (i + 1) := by
  have hgiven := given_give collectionId a slave block isLocal locs
  have hlen : a.given.length = i := by
    rw [Assigner.given, length_map, h.length]
  have hrest := h.rest block
  have hnew : block ∉ a.given := by
    intro hmem
    rw [if_pos hmem, hget] at hrest
    cases hrest
  rw [if_neg hnew, hget] at hrest
  refine ⟨h.inverse.give hget collectionId slave isLocal, ?_, ?_, fun p => ?_, ?_, fun p hp => ?_,
    fun j s hj => ?_, fun x => ?_⟩
  · show (a.sent ++ [_]).length = i + 1
    rw [length_append, h.length]
    rfl
  · show a.blockId + 1 = _
    rw [h.blockId]
    omega
  · show (a.blocks.erase block).get? p = _
    have hmem : p ∈ a.given ++ [block] ↔ p ∈ a.given ∨ p = block := by
      rw [mem_append, mem_singleton]
    rw [get?_erase, hgiven]
    by_cases hp : p = block
    · rw [if_pos hp, if_pos (hmem.mpr (.inr hp))]
    · rw [if_neg hp, h.rest p]
      by_cases hold : p ∈ a.given
      · rw [if_pos hold, if_pos (hmem.mpr (.inl hold))]
      · rw [if_neg hold, if_neg fun h' => (hmem.mp h').elim hold hp]
  · rw [hgiven]
    exact nodup_append.mpr ⟨h.nodup, nodup_singleton _, fun p hp q hq => by
      rw [mem_singleton.mp hq]
      rintro rfl
      exact hnew hp⟩
  · rw [hgiven] at hp
    rcases mem_append.mp hp with hp | hp
    · exact h.known p hp
    · rw [mem_singleton.mp hp, blocks.mem_keys, ← hrest]
      rfl
  · have hj : (a.sent ++ [_])[j]? = some s := hj
    rw [hgiven]
    rcases Nat.lt_or_ge j i with hlt | hge
    · rw [getElem?_append_left (by rw [h.length]; exact hlt)] at hj
      obtain ⟨slave', hturn⟩ := h.turns j s hj
      refine ⟨slave', hturn.whose, hturn.recver, hturn.id, hturn.collection, fun p locs' hp => ?_⟩
      rw [take_append_of_le_length (by omega)] at hp
      exact hturn.nearby p locs' hp
    · rw [getElem?_append_right (by rw [h.length]; exact hge), h.length] at hj
      obtain rfl : j = i := by
        by_contra hne
        rw [getElem?_eq_none (by rw [length_singleton]; omega)] at hj
        cases hj
      rw [Nat.sub_self] at hj
      cases Option.some.inj hj
      refine ⟨slave, hslave, rfl, h.blockId, rfl, fun p locs' hp hp' hs => ⟨locs, hrest.symm, ?_⟩⟩
      rw [take_append_of_le_length (by omega), take_of_length_le (by omega)] at hp
      refine hlocal p locs' ?_ hs
      rw [h.rest p, if_neg hp]
      exact hp'
  · show x ∈ (insertNew a.assignedBlocks a.blockId block).keys ↔ _
    rw [mem_keys_insertNew, h.assigned, h.blockId]
    omega

/-- **The whole deal.**  It ends when all blocks are given. -/
theorem Dealt.deal (hslaves : slaves ≠ []) {n : Nat} (h : Dealt collectionId slaves blocks a i)
    (hn : a.blocks.keys.elems.length = n) :
    ∃ a', deal collectionId slaves slaves.length n (i % slaves.length) a = .ok a' ∧
      Dealt collectionId slaves blocks a' (i + n) ∧ a'.blocks.keys.elems = [] ∧
      a'.finishedBlocks = a.finishedBlocks ∧ a'.numFinished = a.numFinished ∧
      a'.expectedNumFinished = a.expectedNumFinished := by
  have hpos := length_pos_iff.mpr hslaves
  induction n generalizing a i with
  | zero => exact ⟨a, rfl, h, length_eq_zero_iff.mp hn, rfl, rfl, rfl⟩
  | succ n ih =>
    have hlt := Nat.mod_lt i hpos
    have hslave : slaves[i % slaves.length]? = some slaves[i % slaves.length] :=
      getElem?_eq_getElem hlt
    rcases h.inverse.assign collectionId slaves[i % slaves.length] with
      ⟨hnil, -⟩ | ⟨block, locs, isLocal, hget, hlocal, hassign⟩
    · rw [hnil] at hn
      cases hn
    · have hmem : block ∈ a.blocks.keys := by
        rw [a.blocks.mem_keys, hget]
        rfl
      have hn' : (a.give collectionId slaves[i % slaves.length] block isLocal locs).blocks.keys.elems.length =
          n := by
        have hperm := (OrdSet.perm_erase hmem).length_eq
        rw [hn, length_cons] at hperm
        exact (Nat.succ.inj hperm).symm
      obtain ⟨a', hdeal, hdealt, hnil, hframe⟩ := ih (h.give hslave hget hlocal isLocal) hn'
      refine ⟨a', ?_, ?_, hnil, hframe⟩
      · unfold Assigner.deal
        rw [hslave]
        simp only
        rw [hassign]
        rw [Nat.mod_add_mod]
        exact hdeal
      · rwa [Nat.add_assoc, Nat.add_comm 1 n] at hdealt

end Deal

/-- **`Load` of a new assigner.** -/
theorem load_fresh (collectionId : Int) {slaves : List (H × Int)} {numLocalThreads : List Int}
    (isLoadMeta isWholeFile : Bool) (hslaves : slaves ≠ [])
    (hlen : slaves.length = numLocalThreads.length) :
    ∃ a : Assigner F H, load getIP infos fresh collectionId slaves numLocalThreads isLoadMeta
        isWholeFile = .ok ((initBlocks getIP infos (fresh : Assigner F H)).blocks.keys.elems.length, a) ∧
      Dealt collectionId slaves (initBlocks getIP infos fresh).blocks a
        (initBlocks getIP infos (fresh : Assigner F H)).blocks.keys.elems.length ∧
      a.blocks.keys.elems = [] ∧ a.finishedBlocks = .empty ∧ a.numFinished = 0 ∧
      a.expectedNumFinished = (initBlocks getIP infos (fresh : Assigner F H)).blocks.keys.elems.length := by
  set b := initBlocks getIP infos (fresh : Assigner F H) with hbdef
  obtain ⟨l, m, heq⟩ := initBlocks_eq getIP infos (fresh : Assigner F H)
  rw [← hbdef] at heq
  have hdealt : Dealt collectionId slaves b.blocks { b with
      isLoadMeta := isLoadMeta
      isWholeFile := isWholeFile
      numFinished := 0
      numAssigned := 0
      expectedNumFinished := b.blocks.keys.elems.length } 0 := by
    have hinv := inverse_fresh.initBlocks getIP infos
    rw [← hbdef] at hinv
    have hsent : b.sent = [] := by rw [heq]; rfl
    have hid : b.blockId = 0 := by rw [heq]; rfl
    have hassigned : b.assignedBlocks = .empty := by rw [heq]; rfl
    refine ⟨⟨hinv.locality, hinv.hosts⟩, ?_, hid, fun p => ?_, ?_, fun p hp => ?_, fun j s hj => ?_,
      fun x => ?_⟩
    · show b.sent.length = 0
      rw [hsent]
      rfl
    · refine (if_neg fun hp => ?_).symm
      have hp : p ∈ b.sent.map fun s => s.2.block := hp
      rw [hsent] at hp
      exact absurd hp not_mem_nil
    · show (b.sent.map fun s => s.2.block).Nodup
      rw [hsent]
      exact nodup_nil
    · have hp : p ∈ b.sent.map fun s => s.2.block := hp
      rw [hsent] at hp
      exact absurd hp not_mem_nil
    · have hj : b.sent[j]? = some s := hj
      rw [hsent] at hj
      cases hj
    · show x ∈ b.assignedBlocks.keys ↔ _
      rw [hassigned]
      constructor
      · intro hx
        exact absurd hx (OrdSet.notMem_empty x)
      · omega
  obtain ⟨a', hdeal, hdealt', hnil, hfin, hnum, hexp⟩ := hdealt.deal hslaves rfl
  rw [Nat.zero_add] at hdealt'
  refine ⟨a', ?_, hdealt', hnil, ?_, hnum, hexp⟩
  · unfold load
    rw [check_pos hlen, initBlocks_with, ← hbdef, ← hlen]
    rw [Nat.zero_mod] at hdeal
    show (deal collectionId slaves slaves.length b.blocks.keys.elems.length 0 _ >>= _) = _
    rw [hdeal]
    show Except.ok (a'.expectedNumFinished, a') = _
    rw [hexp]
  · rw [hfin]
    show b.finishedBlocks = _
    rw [heq]
    rfl

/-! ## The replies -/

/-- All `n` blocks are given, and those of the replies `done` are finished. -/
structure Finished (n : Nat) (done : List (FinishedBlock H)) (a : Assigner F H) : Prop where
  blocks : a.blocks.keys.elems = []
  num : a.numFinished = done.length
  expected : a.expectedNumFinished = n
  assigned : ∀ x, x ∈ a.assignedBlocks.keys ↔ (0 ≤ x ∧ x < n) ∧ x ∉ done.map (·.blockId)
  keys : ∀ x, x ∈ a.finishedBlocks.keys ↔ x ∈ done.map (·.blockId)
  nodes : ∀ r ∈ done, ∃ b, a.finishedBlocks.get? r.blockId = some b ∧ b.nodeId = r.nodeId

theorem assign_nil (h : a.blocks.keys.elems = []) (collectionId : Int) (slave : H × Int) :
    a.assign collectionId slave = .ok (false, a) := by
  unfold assign
  rw [h]

/-- **One reply.** -/
theorem Finished.finishBlock {n : Nat} {done : List (FinishedBlock H)} {a : Assigner F H}
    (h : Finished n done a) {r : FinishedBlock H} (hr : 0 ≤ r.blockId ∧ r.blockId < n)
    (hnew : r.blockId ∉ done.map (·.blockId)) :
    ∃ a', a.finishBlock r = .ok (decide (done.length + 1 = n), a') ∧ Finished n (done ++ [r]) a' := by
  obtain ⟨b, hb⟩ := Option.isSome_iff_exists.mp
    ((a.assignedBlocks.mem_keys r.blockId).mp ((h.assigned _).mpr ⟨hr, hnew⟩))
  set a' : Assigner F H := { a with
    assignedBlocks := a.assignedBlocks.erase r.blockId
    finishedBlocks := insertNew a.finishedBlocks r.blockId ⟨(ofLex b).1, (ofLex b).2, r.nodeId⟩
    numFinished := a.numFinished + 1 } with ha'
  have hfresh : r.blockId ∉ a.finishedBlocks.keys := fun hx => hnew ((h.keys _).mp hx)
  have hmem : ∀ x, x ∈ (done ++ [r]).map (·.blockId) ↔ x ∈ done.map (·.blockId) ∨ x = r.blockId := by
    intro x
    rw [map_append, mem_append, map_singleton, mem_singleton]
  refine ⟨a', ?_, h.blocks, ?_, h.expected, fun x => ?_, fun x => ?_, fun r' hr' => ?_⟩
  · unfold Assigner.finishBlock
    rw [hb]
    show (if a'.numFinished = a'.expectedNumFinished then _ else _) = _
    have hnum : a'.numFinished = a'.expectedNumFinished ↔ done.length + 1 = n := by
      show a.numFinished + 1 = a.expectedNumFinished ↔ _
      rw [h.num, h.expected]
      omega
    by_cases hlast : done.length + 1 = n
    · rw [if_pos (hnum.mpr hlast), decide_eq_true hlast]
      rfl
    · rw [if_neg (hnum.not.mpr hlast), decide_eq_false hlast]
      have hnil : a'.blocks.keys.elems = [] := h.blocks
      rw [assign_nil hnil]
      rfl
  · show a.numFinished + 1 = _
    rw [h.num, length_append, length_singleton]
    omega
  · show x ∈ (a.assignedBlocks.erase r.blockId).keys ↔ _
    rw [keys_erase, OrdSet.mem_erase, h.assigned, hmem, not_or]
    exact ⟨fun ⟨hne, hx, hd⟩ => ⟨hx, hd, hne⟩, fun ⟨hx, hd, hne⟩ => ⟨hne, hx, hd⟩⟩
  · show x ∈ (insertNew a.finishedBlocks r.blockId _).keys ↔ _
    rw [mem_keys_insertNew, h.keys, hmem]
    exact or_comm
  · show ∃ b, (insertNew a.finishedBlocks r.blockId _).get? r'.blockId = some b ∧ _
    unfold insertNew
    rw [if_neg hfresh, get?_set]
    rcases mem_append.mp hr' with hold | hlast
    · have hne : r'.blockId ≠ r.blockId := by
        intro he
        exact hnew (he ▸ mem_map_of_mem hold)
      rw [if_neg hne]
      exact h.nodes r' hold
    · rw [mem_singleton.mp hlast, if_pos rfl]
      exact ⟨_, rfl, rfl⟩

end Assigner

end Tangram
