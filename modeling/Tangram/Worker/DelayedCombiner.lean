import Tangram.Lib.Bag
import Tangram.Lib.Multimap
import Tangram.Plan.MapJoin

/-!
# The delayed combiner

What becomes of the output of a map on its own node
(`core/worker/delayed_combiner.cpp`): the buffer for each update partition is
sent as it is, combined and sent, or kept in a store until its batch is full or
a timer empties the store.  A batch for a partition of the same node leaves its
stream in the stream store and sends a message without data; any other is
serialised.

The output of an upstream partition for an update partition and a version is in
one place at a time: the store, the executor or a message (`carried`), and
nothing but a new map output changes how often it is (`carried_addMapOutput`,
`carried_periodicCombine`, `carried_runTask`).
-/

namespace Tangram

open StepRun List Multimap
open scoped List

variable {K M O B : Type}

def kMaxCombineTimeout : Int := 10000

/-- An upstream partition and its stream. -/
abbrev StreamPair (K M : Type) := Int × List (K × M)

/-- The `CHECK`s on the batches and on the stream store. -/
inductive StreamCheck
  | combineEmpty
  | insert
  | get
deriving DecidableEq, Repr

/-- The combiner of a node, with the stream store of its plan controller.  `(p, v)` stands for
version `v` of update partition `p`. -/
structure DelayedCombiner (K M B : Type) where
  store : Multimap (Int × Int) (StreamPair K M)
  executor : List ((Int × Int) × List (StreamPair K M))
  /-- by `part_id`, `upstream_part_ids`, `version` -/
  streamStore : Int × List Int × Int → Option (List (K × M))
  /-- The messages on their way. -/
  sent : List (JoinMeta (List B))

namespace DelayedCombiner

def init : DelayedCombiner K M B := ⟨.empty, [], fun _ => none, []⟩

/-! ## The combiner -/

section Model

variable (job : MapJoin K M O B) (n : Int)

/-- `local_mode` is set for a partition of the node itself. -/
def prepareMsgAndSend (d : DelayedCombiner K M B) (key : Int × Int) (ids : List Int)
    (stream : List (K × M)) : Except StreamCheck (DelayedCombiner K M B) :=
  if job.owner key.1 = n then do
    check .insert (d.streamStore (key.1, ids, key.2) = none)
    return { d with
      streamStore := Function.update d.streamStore (key.1, ids, key.2) (some stream)
      sent := d.sent ++ [⟨key.1, key.2, .ext ids, true, []⟩] }
  else
    return { d with sent := d.sent ++ [⟨key.1, key.2, .ext ids, false, job.codec.encodeAll stream⟩] }

def submit (d : DelayedCombiner K M B) (task : (Int × Int) × List (StreamPair K M)) :
    DelayedCombiner K M B :=
  { d with executor := d.executor ++ [task] }

/-- `AddStream`.  With timeout 0 the task combines the one stream, as `CombineSerializeSend`
does with a batch of one. -/
def addStream (d : DelayedCombiner K M B) (u v p : Int) (stream : List (K × M)) :
    Except StreamCheck (DelayedCombiner K M B) :=
  if job.combineTimeout < 0 then prepareMsgAndSend job n d (p, v) [u] stream
  else if job.combineTimeout = 0 then .ok (d.submit ((p, v), [(u, stream)]))
  else
    let store := d.store.push (p, v) (u, stream)
    if (store.val (p, v)).length = (owned (job.partToNode job.mapCollectionId) n).length then
      .ok { d.submit ((p, v), store.val (p, v)) with store := store.erase (p, v) }
    else .ok { d with store := store }

/-- `AddMapOutput`: the buffers of all update partitions. -/
def addMapOutput (d : DelayedCombiner K M B) (u v : Int) :
    Except StreamCheck (DelayedCombiner K M B) :=
  job.updateParts.foldlM
    (fun d p => addStream job n d u v p (outputBuffer job.mapper (job.map u v) p)) d

/-- One round of the loop of `PeriodicCombine`, whose thread only runs in the timed mode. -/
def periodicCombine (d : DelayedCombiner K M B) : DelayedCombiner K M B :=
  if 0 < job.combineTimeout ∧ job.combineTimeout ≤ kMaxCombineTimeout then
    { d with
      store := .empty
      executor := d.executor ++ d.store.entries }
  else d

def combineSerializeSend [LinearOrder K] (d : DelayedCombiner K M B) (key : Int × Int)
    (v : List (StreamPair K M)) : Except StreamCheck (DelayedCombiner K M B) := do
  check .combineEmpty (v ≠ [])
  prepareMsgAndSend job n d key (v.map Prod.fst)
    (combineStream job.sort job.combine (v.flatMap Prod.snd))

/-- A task of the executor runs. -/
def runTask [LinearOrder K] (d : DelayedCombiner K M B) (i : Nat) :
    Except StreamCheck (DelayedCombiner K M B) :=
  match d.executor[i]? with
  | none => .ok d
  | some task => combineSerializeSend job n { d with executor := d.executor.eraseIdx i } task.1 task.2

end Model

/-! ## Nothing is lost -/

end DelayedCombiner

/-- The outputs that a message carries, under the partition and version they are for. -/
def JoinMeta.entry {β : Type} (m : JoinMeta β) : (Int × Int) × List Int :=
  ((m.partId, m.version), m.ids)

/-- How often the output of `u` for version `w` of `p` is among the messages. -/
def tokensIn {β : Type} (ms : List (JoinMeta β)) (p w u : Int) : Nat :=
  Multimap.countIn id (p, w) u (ms.map JoinMeta.entry)

section Tokens

variable {β : Type} {p w u : Int} {ms : List (JoinMeta β)}

@[simp] theorem tokensIn_nil : tokensIn ([] : List (JoinMeta β)) p w u = 0 := rfl

theorem tokensIn_cons (m : JoinMeta β) (ms : List (JoinMeta β)) :
    tokensIn (m :: ms) p w u =
      (if (m.partId, m.version) = (p, w) then m.ids.count u else 0) + tokensIn ms p w u := by
  rw [tokensIn, map_cons, countIn_cons, JoinMeta.entry, map_id]
  rfl

theorem tokensIn_append (ms ms' : List (JoinMeta β)) :
    tokensIn (ms ++ ms') p w u = tokensIn ms p w u + tokensIn ms' p w u := by
  rw [tokensIn, map_append, countIn_append]
  rfl

theorem tokensIn_perm {ms ms' : List (JoinMeta β)} (h : ms ~ ms') :
    tokensIn ms p w u = tokensIn ms' p w u := countIn_perm (h.map _)

theorem tokensIn_take {i : Nat} {m : JoinMeta β} (h : ms[i]? = some m) :
    tokensIn ms p w u = (if (m.partId, m.version) = (p, w) then m.ids.count u else 0) +
      tokensIn (ms.eraseIdx i) p w u := by
  rw [tokensIn_perm (perm_cons_of_getElem? h), tokensIn_cons]

theorem tokensIn_pos : 0 < tokensIn ms p w u ↔ ∃ m ∈ ms, m.Covers p w u := by
  rw [tokensIn, countIn_pos]
  simp [JoinMeta.entry, JoinMeta.Covers, JoinMeta.At]

/-- Messages for other partitions and versions do not count. -/
theorem tokensIn_filter {q : JoinMeta β → Bool} (hq : ∀ m ∈ ms, m.At p w → q m = true) :
    tokensIn (ms.filter q) p w u = tokensIn ms p w u := by
  induction ms with
  | nil => rfl
  | cons m ms ih =>
    have hrest := ih fun m' hm' => hq m' (mem_cons_of_mem _ hm')
    by_cases h : q m = true
    · rw [filter_cons_of_pos h, tokensIn_cons, tokensIn_cons, hrest]
    · have hne : ¬ (m.partId, m.version) = (p, w) :=
        fun he => h (hq m mem_cons_self (Prod.mk.inj he))
      rw [filter_cons_of_neg h, tokensIn_cons, if_neg hne, hrest, Nat.zero_add]

theorem countP_covers (ms : List (JoinMeta β)) : ms.countP (·.Covers p w u) =
    (ms.map JoinMeta.entry).countP fun e => e.1 = (p, w) ∧ u ∈ e.2.map id := by
  rw [countP_map]
  refine countP_congr fun m _ => ?_
  rw [decide_eq_true_iff, Function.comp_apply, decide_eq_true_iff]
  simp only [JoinMeta.Covers, JoinMeta.At, JoinMeta.entry, map_id, Prod.mk.injEq]

/-- A message is counted once for an output, even if it lists the partition twice. -/
theorem countP_covers_le (ms : List (JoinMeta β)) :
    ms.countP (·.Covers p w u) ≤ tokensIn ms p w u := by
  rw [countP_covers]
  exact countP_le_countIn _

theorem countP_covers_eq_one (h : tokensIn ms p w u = 1) : ms.countP (·.Covers p w u) = 1 := by
  rw [countP_covers]
  exact countP_eq_one h

end Tokens

namespace DelayedCombiner

variable {job : MapJoin K M O B} {n : Int} {d d' : DelayedCombiner K M B} {stream : List (K × M)}
  {key : Int × Int}

/-- How often the output of `u` for version `w` of `p` is on its way out. -/
def carried (d : DelayedCombiner K M B) (p w u : Int) : Nat :=
  ((d.store.val (p, w)).map Prod.fst).count u +
    Multimap.countIn Prod.fst (p, w) u d.executor + tokensIn d.sent p w u

theorem prepareMsgAndSend_sent {ids : List Int}
    (h : prepareMsgAndSend job n d key ids stream = .ok d') :
    d'.store = d.store ∧ d'.executor = d.executor ∧
      ∃ bin, d'.sent = d.sent ++ [⟨key.1, key.2, .ext ids, decide (job.owner key.1 = n), bin⟩] := by
  unfold prepareMsgAndSend at h
  split at h
  · next ho =>
    obtain ⟨_, _, h⟩ := bind_eq_ok.mp h
    cases h
    exact ⟨rfl, rfl, [], by simp [ho]⟩
  · next ho =>
    cases h
    exact ⟨rfl, rfl, _, by simp [ho]; rfl⟩

theorem carried_prepareMsgAndSend {ids : List Int}
    (h : prepareMsgAndSend job n d key ids stream = .ok d') (p w u : Int) :
    d'.carried p w u = d.carried p w u + if key = (p, w) then ids.count u else 0 := by
  obtain ⟨hs, he, bin, hsent⟩ := prepareMsgAndSend_sent h
  unfold carried
  obtain ⟨q, v⟩ := key
  rw [hs, he, hsent, tokensIn_append, tokensIn_cons, tokensIn_nil]
  simp only [JoinMeta.ids, Upstream.ids]
  omega

theorem carried_submit (d : DelayedCombiner K M B) (task : (Int × Int) × List (StreamPair K M))
    (p w u : Int) : (d.submit task).carried p w u =
      d.carried p w u + if task.1 = (p, w) then (task.2.map Prod.fst).count u else 0 := by
  simp only [carried, submit, countIn_append, countIn_cons, countIn_nil]
  omega

theorem carried_addStream {u v p : Int} {stream : List (K × M)}
    (h : addStream job n d u v p stream = .ok d') (q w x : Int) :
    d'.carried q w x = d.carried q w x + if (p, v) = (q, w) ∧ u = x then 1 else 0 := by
  have hone : ([u].count x) = if u = x then 1 else 0 := by simp [count_singleton]
  have hif : (if (p, v) = (q, w) ∧ u = x then 1 else 0) =
      if (p, v) = (q, w) then [u].count x else 0 := by
    rw [hone]
    by_cases hk : (p, v) = (q, w) <;> simp [hk]
  rw [hif]
  unfold addStream at h
  split at h
  · exact carried_prepareMsgAndSend h q w x
  · split at h
    · cases h
      exact carried_submit d ((p, v), [(u, stream)]) q w x
    · simp only at h
      split at h
      · -- the full batch leaves the store for the executor
        cases h
        have hs := carried_submit d ((p, v), (d.store.push (p, v) (u, stream)).val (p, v)) q w x
        unfold carried at hs ⊢
        simp only [submit, val_erase, val_push, if_true, map_append,
          map_cons, map_nil, count_append] at hs ⊢
        by_cases hk : (q, w) = (p, v)
        · rw [hk] at hs ⊢
          simp only [if_true, map_nil, count_nil] at hs ⊢
          omega
        · simp only [hk, Ne.symm hk, if_false] at hs ⊢
          omega
      · cases h
        unfold carried
        simp only [val_push]
        by_cases hk : (q, w) = (p, v)
        · rw [hk]
          simp only [if_true, map_append, map_cons, map_nil, count_append]
          omega
        · simp only [hk, Ne.symm hk, if_false]
          omega

theorem carried_foldlM (ps : List Int) (hps : ps.Nodup) {u v : Int} {out : Int → List (K × M)}
    (h : ps.foldlM (fun d p => addStream job n d u v p (out p)) d = .ok d') (q w x : Int) :
    d'.carried q w x = d.carried q w x + if q ∈ ps ∧ v = w ∧ u = x then 1 else 0 := by
  induction ps generalizing d with
  | nil =>
    cases h
    simp
  | cons p ps ih =>
    rw [foldlM_cons] at h
    obtain ⟨d₁, h₁, h⟩ := bind_eq_ok.mp h
    obtain ⟨hnot, hps⟩ := nodup_cons.mp hps
    rw [ih hps h, carried_addStream h₁]
    simp only [mem_cons, Prod.mk.injEq]
    by_cases hq : q = p
    · subst hq
      simp [hnot]
    · simp [hq, Ne.symm hq]

/-- **A map output** adds one output for every update partition. -/
theorem carried_addMapOutput {u v : Int} (h : addMapOutput job n d u v = .ok d') {p : Int}
    (hp : p ∈ job.updateParts) (w x : Int) :
    d'.carried p w x = d.carried p w x + if v = w ∧ u = x then 1 else 0 := by
  rw [carried_foldlM job.updateParts (partsOf_nodup _) h]
  simp [hp]

theorem carried_periodicCombine (d : DelayedCombiner K M B) (p w u : Int) :
    (d.periodicCombine job).carried p w u = d.carried p w u := by
  unfold periodicCombine
  split
  · simp only [carried, val_empty, map_nil, count_nil,
      countIn_append, countIn_entries]
    omega
  · rfl

theorem carried_runTask [LinearOrder K] {i : Nat} (h : runTask job n d i = .ok d') (p w u : Int) :
    d'.carried p w u = d.carried p w u := by
  unfold runTask at h
  split at h
  · cases h
    rfl
  · next task hi =>
    unfold combineSerializeSend at h
    obtain ⟨_, _, h⟩ := bind_eq_ok.mp h
    rw [carried_prepareMsgAndSend h]
    simp only [carried]
    rw [countIn_perm (perm_cons_of_getElem? hi), countIn_cons]
    omega

/-! ## What is on its way comes from the node's own maps -/

/-- The stream of an upstream partition of node `n` for `(p, v)`. -/
structure Item (job : MapJoin K M O B) (n : Int) (key : Int × Int) (x : StreamPair K M) :
    Prop where
  part : key.1 ∈ job.updateParts
  version : 0 ≤ key.2
  upstream : x.1 ∈ job.mapParts
  home : job.home x.1 = n
  stream : x.2 = outputBuffer job.mapper (job.map x.1 key.2) key.1

/-- In the shuffle mode, a batch holds the outputs of as many upstream partitions as the node
has. -/
def Full (job : MapJoin K M O B) (n : Int) (len : Nat) : Prop :=
  kMaxCombineTimeout < job.combineTimeout →
    len = (owned (job.partToNode job.mapCollectionId) n).length

/-- A message of node `n`. -/
structure Sent (job : MapJoin K M O B) (n : Int) (m : JoinMeta (List B)) : Prop where
  part : m.partId ∈ job.updateParts
  version : 0 ≤ m.version
  ids : m.ids ≠ []
  upstream : ∀ u ∈ m.ids, u ∈ job.mapParts ∧ job.home u = n
  localMode : m.localMode = decide (job.owner m.partId = n)
  full : Full job n m.ids.length

/-- A batch of node `n`. -/
structure Batch (job : MapJoin K M O B) (n : Int) (key : Int × Int)
    (xs : List (StreamPair K M)) : Prop where
  ne_nil : xs ≠ []
  items : ∀ x ∈ xs, Item job n key x
  full : Full job n xs.length

structure Outgoing (job : MapJoin K M O B) (n : Int) (d : DelayedCombiner K M B) : Prop where
  store : ∀ key, ∀ x ∈ d.store.val key, Item job n key x
  /-- What is in the store is no full batch; the immediate modes do not use it. -/
  short : ∀ key, d.store.val key ≠ [] → 0 < job.combineTimeout ∧
    (d.store.val key).length < (owned (job.partToNode job.mapCollectionId) n).length
  executor : ∀ t ∈ d.executor, Batch job n t.1 t.2
  sent : ∀ m ∈ d.sent, Sent job n m

theorem outgoing_init : Outgoing job n (init : DelayedCombiner K M B) where
  store _ _ h := by cases h
  short _ h := absurd rfl h
  executor _ h := by cases h
  sent _ h := by cases h

section Outgoing

variable {d d' : DelayedCombiner K M B} {x : StreamPair K M}

theorem Outgoing.prepareMsgAndSend (h : Outgoing job n d) {xs : List (StreamPair K M)}
    (hxs : Batch job n key xs)
    (hd : prepareMsgAndSend job n d key (xs.map Prod.fst) stream = .ok d') : Outgoing job n d' := by
  obtain ⟨hs, he, bin, hsent⟩ := prepareMsgAndSend_sent hd
  refine ⟨hs ▸ h.store, hs ▸ h.short, he ▸ h.executor, fun m hm => ?_⟩
  rw [hsent] at hm
  rcases mem_append.mp hm with hm | hm
  · exact h.sent m hm
  · obtain ⟨x, hx⟩ := exists_mem_of_ne_nil xs hxs.ne_nil
    rw [mem_singleton.mp hm]
    refine ⟨(hxs.items x hx).part, (hxs.items x hx).version, ?_, fun u hu => ?_, rfl, ?_⟩
    · simpa [JoinMeta.ids, Upstream.ids] using hxs.ne_nil
    · obtain ⟨y, hy, rfl⟩ := mem_map.mp hu
      exact ⟨(hxs.items y hy).upstream, (hxs.items y hy).home⟩
    · show Full job n (xs.map Prod.fst).length
      rw [length_map]
      exact hxs.full

theorem Outgoing.submit (h : Outgoing job n d) {t : (Int × Int) × List (StreamPair K M)}
    (ht : Batch job n t.1 t.2) : Outgoing job n (d.submit t) := by
  refine { h with executor := fun t' ht' => ?_ }
  rcases mem_append.mp ht' with ht' | ht'
  · exact h.executor t' ht'
  · rw [mem_singleton.mp ht']
    exact ht

/-- A batch of one, in a mode that does not wait for more. -/
theorem batch_one (hx : Item job n key x) (hmode : job.combineTimeout ≤ 0) :
    Batch job n key [x] where
  ne_nil := by simp
  items y hy := mem_singleton.mp hy ▸ hx
  full hshuffle := by
    unfold kMaxCombineTimeout at hshuffle
    omega

theorem Item.length_pos (hx : Item job n key x) :
    0 < (owned (job.partToNode job.mapCollectionId) n).length :=
  length_pos_of_mem (mem_owned.mpr ⟨hx.upstream, hx.home⟩)

/-- A stream is put into the store. -/
theorem Outgoing.push (h : Outgoing job n d) (hx : Item job n key x) :
    (∀ k, ∀ y ∈ (d.store.push key x).val k, Item job n k y) ∧
      ((d.store.push key x).val key).length ≤
        (owned (job.partToNode job.mapCollectionId) n).length := by
  refine ⟨fun k y hm => ?_, ?_⟩
  · rw [val_push] at hm
    split at hm
    · next hk =>
      subst hk
      rcases mem_append.mp hm with hm | hm
      · exact h.store _ y hm
      · exact mem_singleton.mp hm ▸ hx
    · exact h.store k y hm
  · rw [val_push, if_pos rfl, length_append, length_singleton]
    by_cases hne : d.store.val key = []
    · rw [hne]
      exact hx.length_pos
    · exact (h.short key hne).2

theorem Outgoing.addStream (h : Outgoing job n d) {u v p : Int} (hx : Item job n (p, v) (u, stream))
    (hd : addStream job n d u v p stream = .ok d') : Outgoing job n d' := by
  obtain ⟨hpush, hlen⟩ := h.push hx
  unfold DelayedCombiner.addStream at hd
  split at hd
  · next hmode => exact h.prepareMsgAndSend (batch_one hx hmode.le) hd
  · split at hd
    · next hmode =>
      cases hd
      exact h.submit (batch_one hx hmode.le)
    · simp only at hd
      split at hd
      · next hfull =>
        cases hd
        have hne : (d.store.push (p, v) (u, stream)).val (p, v) ≠ [] := by
          simp [val_push]
        have hbatch : Batch job n (p, v) ((d.store.push (p, v) (u, stream)).val (p, v)) :=
          ⟨hne, hpush (p, v), fun _ => hfull⟩
        refine { h.submit (t := ((p, v), _)) hbatch with
          store := fun key x hm => ?_, short := fun key hk => ?_ }
        · rw [val_erase] at hm
          split at hm
          · cases hm
          · exact hpush key x hm
        · rw [val_erase] at hk ⊢
          split at hk
          · exact absurd rfl hk
          · next hkey =>
            rw [if_neg hkey]
            rw [val_push, if_neg hkey] at hk ⊢
            exact h.short key hk
      · next hmode₁ hmode₂ hfull =>
        cases hd
        refine { h with store := hpush, short := fun key hk => ?_ }
        by_cases hkey : key = (p, v)
        · subst hkey
          exact ⟨by omega, lt_of_le_of_ne hlen hfull⟩
        · simp only [val_push, if_neg hkey] at hk ⊢
          exact h.short key hk

/-- The output of a map of the node. -/
theorem Outgoing.addMapOutput (h : Outgoing job n d) {u v : Int} (hv : 0 ≤ v)
    (hu : u ∈ job.mapParts) (hn : job.home u = n) (hd : addMapOutput job n d u v = .ok d') :
    Outgoing job n d' := by
  refine foldlM_induct job.updateParts h (fun d₁ p d₂ hp h₁ h₂ => ?_) hd
  exact h₁.addStream ⟨hp, hv, hu, hn, rfl⟩ h₂

theorem Outgoing.periodicCombine (h : Outgoing job n d) :
    Outgoing job n (d.periodicCombine job) := by
  unfold DelayedCombiner.periodicCombine
  split
  · next hmode =>
    refine ⟨fun _ _ hm => (by cases hm), fun _ hk => absurd rfl hk, fun t ht => ?_, h.sent⟩
    rcases mem_append.mp ht with ht | ht
    · exact h.executor t ht
    · obtain ⟨hne, heq⟩ := mem_entries ht
      exact ⟨hne, fun x hx => h.store t.1 x (heq ▸ hx), fun hshuffle => by omega⟩
  · exact h

theorem Outgoing.runTask [LinearOrder K] (h : Outgoing job n d) {i : Nat}
    (hd : runTask job n d i = .ok d') : Outgoing job n d' := by
  unfold DelayedCombiner.runTask at hd
  split at hd
  · cases hd
    exact h
  · next task hi =>
    have hbatch := h.executor task (mem_of_getElem? hi)
    obtain ⟨_, _, hd⟩ := bind_eq_ok.mp hd
    have h₁ : Outgoing job n { d with executor := d.executor.eraseIdx i } :=
      { h with executor := fun t ht => h.executor t (mem_of_mem_eraseIdx ht) }
    exact h₁.prepareMsgAndSend hbatch hd

end Outgoing

end DelayedCombiner

end Tangram
