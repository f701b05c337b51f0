import Tangram.Worker.DelayedCombiner

/-!
# The batches of a combiner

The output of a local map partition is in one place at a time, a batch carries the streams
of the partitions that it lists, and its place in the stream store is free when it is sent
(`Batches`).  The combiner keeps this as long as no output is handed over twice
(`Batches.addStream`, `Batches.periodicCombine`, `Batches.runTask`).
-/

namespace Tangram

open StepRun List Function Multimap

variable {K M O B : Type}

namespace DelayedCombiner

/-- The map partitions of the node; there are `num_local_map_part_` of them. -/
def locals (job : MapJoin K M O B) (n : Int) : List Int :=
  owned (job.partToNode job.mapCollectionId) n

/-! ## Batches -/

section Batches

variable (job : MapJoin K M O B) (n : Int)

/-- The streams of some partitions, one after the other. -/
def concatenated (key : Int × Int) (ids : List Int) : List (K × M) :=
  ids.flatMap fun u => outputBuffer job.mapper (job.map u key.2) key.1

/-- What is sent of a stream: without timeout, the stream itself. -/
def combined [LinearOrder K] (stream : List (K × M)) : List (K × M) :=
  if job.combineTimeout < 0 then stream else combineStream job.sort job.combine stream

/-- The message carries the concatenated streams of the partitions it lists, in the stream store
if it is for the node itself. -/
structure Conveys [LinearOrder K] (d : DelayedCombiner K M B) (m : JoinMeta (List B)) : Prop where
  localMode : m.localMode = decide (job.owner m.partId = n)
  kept : m.localMode = true → d.streamStore (m.partId, m.ids, m.version) =
    some (combined job (concatenated job (m.partId, m.version) m.ids))
  bin : m.localMode = false → m.bin =
    job.codec.encodeAll (combined job (concatenated job (m.partId, m.version) m.ids))

/-- A stream of a local partition. -/
structure Stream (key : Int × Int) (x : StreamPair K M) : Prop where
  home : x.1 ∈ locals job n
  stream : x.2 = outputBuffer job.mapper (job.map x.1 key.2) key.1

/-- A list of streams that are sent together. -/
structure Together (key : Int × Int) (xs : List (StreamPair K M)) : Prop where
  ne_nil : xs ≠ []
  streams : ∀ x ∈ xs, Stream job n key x
  full : Full job n xs.length

structure Batches [LinearOrder K] (d : DelayedCombiner K M B) : Prop where
  once : ∀ p w u, d.carried p w u ≤ 1
  store : ∀ key, ∀ x ∈ d.store.val key, Stream job n key x
  short : ∀ key, d.store.val key ≠ [] →
    0 < job.combineTimeout ∧ (d.store.val key).length < (locals job n).length
  executor : ∀ t ∈ d.executor, 0 ≤ job.combineTimeout ∧ Together job n t.1 t.2
  ids : ∀ m ∈ d.sent, m.ids ≠ [] ∧ (∀ u ∈ m.ids, u ∈ locals job n) ∧
    Full job n m.ids.length
  sent : ∀ m ∈ d.sent, Conveys job n d m
  /-- An entry of the stream store belongs to a message. -/
  kept : ∀ p is w, d.streamStore (p, is, w) ≠ none → ∃ m ∈ d.sent, m.entry = ((p, w), is)
  /-- In the shuffle mode, nothing of a version is sent while some of it is in the store. -/
  apart : kMaxCombineTimeout < job.combineTimeout → ∀ p w, d.store.val (p, w) ≠ [] →
    ∀ u, Multimap.countIn Prod.fst (p, w) u d.executor + tokensIn d.sent p w u = 0

end Batches

variable {job : MapJoin K M O B} {n : Int} {xs : List (StreamPair K M)}

theorem Conveys.congr [LinearOrder K] {d d' : DelayedCombiner K M B} {m : JoinMeta (List B)}
    (h : Conveys job n d m) (hs : d'.streamStore = d.streamStore) : Conveys job n d' m :=
  ⟨h.localMode, fun hl => by rw [hs]; exact h.kept hl, h.bin⟩

theorem concatenated_map {key : Int × Int} (h : ∀ x ∈ xs, Stream job n key x) :
    concatenated job key (xs.map Prod.fst) = xs.flatMap Prod.snd := by
  unfold concatenated
  induction xs with
  | nil => rfl
  | cons x xs ih =>
    rw [map_cons, flatMap_cons, flatMap_cons, (h x mem_cons_self).stream,
      ih fun y hy => h y (mem_cons_of_mem _ hy)]

theorem batches_init [LinearOrder K] : Batches job n (init : DelayedCombiner K M B) where
  once _ _ _ := Nat.zero_le 1
  store _ _ h := by cases h
  short _ h := absurd rfl h
  executor _ h := by cases h
  ids _ h := by cases h
  sent _ h := by cases h
  kept _ _ _ h := absurd rfl h
  apart _ _ _ h := absurd rfl h

section Steps

variable [LinearOrder K] {d d' : DelayedCombiner K M B} {ids : List Int}

theorem count_add_le_one (hnd : ids.Nodup) {u : Int} {c : Nat} (hone : c ≤ 1)
    (hnew : u ∈ ids → c = 0) : c + ids.count u ≤ 1 := by
  have hcount := nodup_iff_count_le_one.mp hnd u
  by_cases hu : u ∈ ids
  · have := hnew hu
    omega
  · rw [count_eq_zero_of_not_mem hu]
    exact hone

/-- The messages of a combiner carry what they list, and the stream store has nothing else. -/
structure Posted (job : MapJoin K M O B) (n : Int) (d : DelayedCombiner K M B) : Prop where
  sent : ∀ m ∈ d.sent, Conveys job n d m
  kept : ∀ p is w, d.streamStore (p, is, w) ≠ none → ∃ m ∈ d.sent, m.entry = ((p, w), is)

/-- A message that lists partitions together that no other lists together. -/
theorem Posted.prepareMsgAndSend (h : Posted job n d) {p w : Int}
    (hfree : ∀ m ∈ d.sent, m.entry ≠ ((p, w), ids)) :
    ∃ d', prepareMsgAndSend job n d (p, w) ids (combined job (concatenated job (p, w) ids)) =
        .ok d' ∧ Posted job n d' := by
  have hnone : d.streamStore (p, ids, w) = none := by
    by_contra hsome
    obtain ⟨m, hm, he⟩ := h.kept p ids w hsome
    exact hfree m hm he
  unfold DelayedCombiner.prepareMsgAndSend
  by_cases ho : job.owner p = n
  · rw [if_pos ho, check_pos hnone]
    refine ⟨_, rfl, fun m hm => ?_, fun q is v hq => ?_⟩
    · rcases mem_append.mp hm with hm | hm
      · have hc := h.sent m hm
        refine ⟨hc.localMode, fun hl => ?_, hc.bin⟩
        have hkey : (m.partId, m.ids, m.version) ≠ (p, ids, w) := by
          intro he
          simp only [Prod.mk.injEq] at he
          apply hfree m hm
          rw [JoinMeta.entry, he.1, he.2.1, he.2.2]
        show update d.streamStore _ _ _ = _
        rw [update_of_ne hkey]
        exact hc.kept hl
      · rw [mem_singleton.mp hm]
        refine ⟨(decide_eq_true ho).symm, fun _ => ?_, fun hl => absurd hl (by simp)⟩
        exact update_self _ _ _
    · by_cases hkey : (q, is, v) = (p, ids, w)
      · simp only [Prod.mk.injEq] at hkey
        obtain ⟨rfl, rfl, rfl⟩ := hkey
        exact ⟨_, mem_append_right _ (mem_singleton_self _), rfl⟩
      · have hq : update d.streamStore (p, ids, w) _ (q, is, v) ≠ none := hq
        rw [update_of_ne hkey] at hq
        obtain ⟨m, hm, he⟩ := h.kept q is v hq
        exact ⟨m, mem_append_left _ hm, he⟩
  · rw [if_neg ho]
    refine ⟨_, rfl, fun m hm => ?_, fun q is v hq => ?_⟩
    · rcases mem_append.mp hm with hm | hm
      · exact (h.sent m hm).congr rfl
      · rw [mem_singleton.mp hm]
        exact ⟨(decide_eq_false ho).symm, fun hl => absurd hl (by simp), fun _ => rfl⟩
    · obtain ⟨m, hm, he⟩ := h.kept q is v hq
      exact ⟨m, mem_append_left _ hm, he⟩

/-- **A batch is sent.**  None of its outputs is anywhere else, so its place in the stream store is
free. -/
theorem Batches.prepareMsgAndSend (h : Batches job n d) {p w : Int} (hxs : Together job n (p, w) xs)
    (hnd : (xs.map Prod.fst).Nodup) (hnew : ∀ u ∈ xs.map Prod.fst, d.carried p w u = 0)
    (hstore : kMaxCombineTimeout < job.combineTimeout → d.store.val (p, w) = []) :
    ∃ d', prepareMsgAndSend job n d (p, w) (xs.map Prod.fst)
        (combined job (xs.flatMap Prod.snd)) = .ok d' ∧ Batches job n d' := by
  set ids := xs.map Prod.fst with hids
  have hne : ids ≠ [] := fun he => hxs.ne_nil (map_eq_nil_iff.mp he)
  -- a message with the same partitions would count
  have hfree : ∀ m ∈ d.sent, m.entry ≠ ((p, w), ids) := by
    intro m hm he
    obtain ⟨u, hu⟩ := exists_mem_of_ne_nil ids hne
    obtain ⟨hkey, hmid⟩ := Prod.mk.inj he
    have hpos : 0 < tokensIn d.sent p w u :=
      tokensIn_pos.mpr ⟨m, hm, Prod.mk.inj hkey, hmid ▸ hu⟩
    have hzero := hnew u hu
    unfold carried at hzero
    omega
  obtain ⟨d', hd', hposted⟩ := Posted.prepareMsgAndSend ⟨h.sent, h.kept⟩ hfree
  rw [hids, concatenated_map hxs.streams, ← hids] at hd'
  obtain ⟨hs, he, bin, hsent⟩ := prepareMsgAndSend_sent hd'
  refine ⟨d', hd', fun q v u => ?_, hs ▸ h.store, hs ▸ h.short, he ▸ h.executor, fun m hm => ?_,
    hposted.sent, hposted.kept, fun hshuffle q v hv u => ?_⟩
  · rw [carried_prepareMsgAndSend hd']
    have hone := h.once q v u
    split
    · next hkey =>
      rw [← (Prod.mk.inj hkey).1, ← (Prod.mk.inj hkey).2] at hone ⊢
      exact count_add_le_one hnd hone (hnew u)
    · exact hone
  · rw [hsent] at hm
    rcases mem_append.mp hm with hm | hm
    · exact h.ids m hm
    · rw [mem_singleton.mp hm]
      refine ⟨hne, fun u hu => ?_, ?_⟩
      · obtain ⟨x, hx, rfl⟩ := mem_map.mp hu
        exact (hxs.streams x hx).home
      · show Full job n ids.length
        rw [hids, length_map]
        exact hxs.full
  · rw [hs] at hv
    have hother : ¬ (p, w) = (q, v) := by
      intro hkey
      rw [← hkey] at hv
      exact hv (hstore hshuffle)
    have hzero := h.apart hshuffle q v hv u
    rw [he, hsent, tokensIn_append, tokensIn_cons, tokensIn_nil, if_neg hother]
    omega

theorem Batches.submit (h : Batches job n d) (hmode : 0 ≤ job.combineTimeout) {p w : Int}
    (hxs : Together job n (p, w) xs) (hnd : (xs.map Prod.fst).Nodup)
    (hnew : ∀ u ∈ xs.map Prod.fst, d.carried p w u = 0)
    (hstore : kMaxCombineTimeout < job.combineTimeout → d.store.val (p, w) = []) :
    Batches job n (d.submit ((p, w), xs)) := by
  refine ⟨fun q v u => ?_, h.store, h.short, fun t ht => ?_, h.ids, ?_, h.kept,
    fun hshuffle q v hv u => ?_⟩
  · rw [carried_submit]
    have hone := h.once q v u
    split
    · next hkey =>
      rw [← (Prod.mk.inj hkey).1, ← (Prod.mk.inj hkey).2] at hone ⊢
      exact count_add_le_one hnd hone (hnew u)
    · exact hone
  · rcases mem_append.mp ht with ht | ht
    · exact h.executor t ht
    · rw [mem_singleton.mp ht]
      exact ⟨hmode, hxs⟩
  · exact fun m hm => (h.sent m hm).congr rfl
  · have hv : d.store.val (q, v) ≠ [] := hv
    have hother : ¬ (p, w) = (q, v) := by
      intro hkey
      rw [← hkey] at hv
      exact hv (hstore hshuffle)
    have hzero := h.apart hshuffle q v hv u
    show countIn Prod.fst (q, v) u (d.executor ++ [((p, w), xs)]) +
      tokensIn d.sent q v u = 0
    rw [countIn_append, countIn_cons, countIn_nil, if_neg hother]
    omega

/-- Some keys of the store are emptied. -/
theorem Batches.clear (h : Batches job n d) {st : Multimap (Int × Int) (StreamPair K M)}
    (hst : ∀ k, st.val k = d.store.val k ∨ st.val k = []) : Batches job n { d with store := st } := by
  refine ⟨fun q v u => ?_, fun k x hx => ?_, fun k hk => ?_, h.executor, h.ids,
    fun m hm => (h.sent m hm).congr rfl, h.kept,
    fun hshuffle q v hv u => ?_⟩
  · have hone := h.once q v u
    simp only [carried] at hone ⊢
    rcases hst (q, v) with he | he
    · rw [he]
      exact hone
    · rw [he, map_nil, count_nil]
      omega
  · have hx : x ∈ st.val k := hx
    rcases hst k with he | he
    · exact h.store k x (he ▸ hx)
    · rw [he] at hx
      exact absurd hx not_mem_nil
  · have hk : st.val k ≠ [] := hk
    have he := (hst k).resolve_right hk
    show 0 < job.combineTimeout ∧ (st.val k).length < _
    rw [he] at hk ⊢
    exact h.short k hk
  · have hv : st.val (q, v) ≠ [] := hv
    have he := (hst (q, v)).resolve_right hv
    rw [he] at hv
    exact h.apart hshuffle q v hv u

omit [LinearOrder K] in
theorem perm_locals (hnd : ids.Nodup) (hmem : ∀ u ∈ ids, u ∈ locals job n)
    (hlen : ids.length = (locals job n).length) : ids.Perm (locals job n) :=
  (hnd.subperm hmem).perm_of_length_le (Nat.le_of_eq hlen.symm)

/-- In the shuffle mode a batch lists all local partitions. -/
theorem Batches.all_of_sent (h : Batches job n d) (hshuffle : kMaxCombineTimeout < job.combineTimeout)
    {p w u : Int} (hpos : 0 < Multimap.countIn Prod.fst (p, w) u d.executor + tokensIn d.sent p w u)
    {u' : Int} (hu' : u' ∈ locals job n) : 0 < d.carried p w u' := by
  have hcount : ∀ x, countIn Prod.fst (p, w) x d.executor ≤ 1 ∧ tokensIn d.sent p w x ≤ 1 := by
    intro x
    have := h.once p w x
    unfold carried at this
    omega
  rcases Nat.add_pos_iff_pos_or_pos.mp hpos with hpos | hpos
  · obtain ⟨t, ht, hkey, -⟩ := countIn_pos.mp hpos
    obtain ⟨-, hbatch⟩ := h.executor t ht
    obtain ⟨i, hi⟩ := getElem?_of_mem ht
    have hnd : (t.2.map Prod.fst).Nodup := by
      refine nodup_iff_count_le_one.mpr fun x => ?_
      have hx := (hcount x).1
      rw [countIn_perm (perm_cons_of_getElem? hi), countIn_cons,
        if_pos hkey] at hx
      omega
    have hmem : ∀ x ∈ t.2.map Prod.fst, x ∈ locals job n := by
      intro x hx
      obtain ⟨y, hy, rfl⟩ := mem_map.mp hx
      exact (hbatch.streams y hy).home
    have hperm := perm_locals hnd hmem ((length_map _).trans (hbatch.full hshuffle))
    have hpos' : 0 < countIn Prod.fst (p, w) u' d.executor :=
      countIn_pos.mpr ⟨t, ht, hkey, hperm.mem_iff.mpr hu'⟩
    unfold carried
    omega
  · obtain ⟨m, hm, hcov⟩ := tokensIn_pos.mp hpos
    obtain ⟨-, hmem, hfull⟩ := h.ids m hm
    obtain ⟨i, hi⟩ := getElem?_of_mem hm
    have hnd : m.ids.Nodup := by
      refine nodup_iff_count_le_one.mpr fun x => ?_
      have hx := (hcount x).2
      rw [tokensIn_take hi, if_pos (Prod.ext hcov.1.1 hcov.1.2)] at hx
      omega
    have hperm := perm_locals hnd hmem (hfull hshuffle)
    have hpos' : 0 < tokensIn d.sent p w u' :=
      tokensIn_pos.mpr ⟨m, hm, hcov.1, hperm.mem_iff.mpr hu'⟩
    unfold carried
    omega

/-- **A stream is handed over** for the first time. -/
theorem Batches.addStream (h : Batches job n d) {u v p : Int} (hu : u ∈ locals job n)
    (hnew : d.carried p v u = 0) :
    ∃ d', addStream job n d u v p (outputBuffer job.mapper (job.map u v) p) = .ok d' ∧
      Batches job n d' := by
  set x : StreamPair K M := (u, outputBuffer job.mapper (job.map u v) p) with hx
  have hstream : Stream job n (p, v) x := ⟨hu, rfl⟩
  have hpos : 0 < (locals job n).length := length_pos_of_mem hu
  have hone : ∀ y ∈ [x].map Prod.fst, d.carried p v y = 0 := by
    intro y hy
    rw [mem_singleton.mp hy]
    exact hnew
  have htog : job.combineTimeout ≤ 0 → Together job n (p, v) [x] := by
    intro hmode
    refine ⟨by simp, fun y hy => ?_, fun hshuffle => ?_⟩
    · rw [mem_singleton.mp hy]
      exact hstream
    · unfold kMaxCombineTimeout at hshuffle
      omega
  unfold DelayedCombiner.addStream
  split
  · next hmode =>
    obtain ⟨d', hd', hb⟩ := h.prepareMsgAndSend (htog hmode.le) (nodup_singleton _) hone
      fun hshuffle => by unfold kMaxCombineTimeout at hshuffle; omega
    refine ⟨d', ?_, hb⟩
    rw [← hd']
    unfold combined
    rw [if_pos hmode, flatMap_singleton]
    rfl
  · next hmode =>
    split
    · next hzero =>
      refine ⟨_, rfl, h.submit hzero.ge (htog hzero.le) (nodup_singleton _) hone fun hshuffle => ?_⟩
      unfold kMaxCombineTimeout at hshuffle
      omega
    · next hzero =>
      have hval : (d.store.push (p, v) x).val (p, v) = d.store.val (p, v) ++ [x] := by
        rw [val_push, if_pos rfl]
      have hstreams : ∀ y ∈ d.store.val (p, v) ++ [x], Stream job n (p, v) y := by
        intro y hy
        rcases mem_append.mp hy with hy | hy
        · exact h.store (p, v) y hy
        · rw [mem_singleton.mp hy]
          exact hstream
      have hcount : ∀ y, ((d.store.val (p, v) ++ [x]).map Prod.fst).count y +
          countIn Prod.fst (p, v) y d.executor + tokensIn d.sent p v y ≤ 1 := by
        intro y
        have hy : d.carried p v y + [u].count y ≤ 1 :=
          count_add_le_one (nodup_singleton u) (h.once p v y) (hone y)
        unfold carried at hy
        rw [map_append, count_append]
        show _ + [u].count y + _ + _ ≤ 1
        omega
      have hnd : ((d.store.val (p, v) ++ [x]).map Prod.fst).Nodup := by
        refine nodup_iff_count_le_one.mpr fun y => ?_
        have := hcount y
        omega
      simp only
      split
      · next hfull =>
        -- the full batch leaves the store
        have hclear : ∀ k, ((d.store.push (p, v) x).erase (p, v)).val k = d.store.val k ∨
            ((d.store.push (p, v) x).erase (p, v)).val k = [] := by
          intro k
          rw [val_erase, val_push]
          by_cases hk : k = (p, v)
          · exact .inr (if_pos hk)
          · left
            rw [if_neg hk, if_neg hk]
        have hempty : ((d.store.push (p, v) x).erase (p, v)).val (p, v) = [] := by
          rw [val_erase, if_pos rfl]
        rw [hval] at hfull ⊢
        refine ⟨_, rfl, (h.clear hclear).submit (by omega)
          ⟨by simp, hstreams, fun _ => hfull⟩ hnd (fun y hy => ?_) fun _ => hempty⟩
        have hone := h.once p v y
        simp only [carried, hempty, map_nil, count_nil] at hone hnew ⊢
        rw [map_append, mem_append] at hy
        rcases hy with hy | hy
        · have := count_pos_iff.mpr hy
          omega
        · rw [mem_singleton.mp hy]
          show 0 + countIn Prod.fst (p, v) u d.executor + tokensIn d.sent p v u = 0
          omega
      · next hfull =>
        rw [hval] at hfull
        refine ⟨_, rfl, fun q w y => ?_, fun k y hy => ?_, fun k hk => ?_, h.executor, h.ids,
          fun m hm => (h.sent m hm).congr rfl, h.kept, fun hshuffle q w hw y => ?_⟩
        · have hone := h.once q w y
          simp only [carried, val_push] at hone ⊢
          split
          · next hk =>
            cases hk
            exact hcount y
          · exact hone
        · rw [val_push] at hy
          split at hy
          · next hk =>
            rw [hk]
            exact hstreams y hy
          · exact h.store k y hy
        · simp only [val_push] at hk ⊢
          split
          · next he =>
            refine ⟨by omega, Nat.lt_of_le_of_ne ?_ hfull⟩
            rw [length_append, length_singleton]
            by_cases hne : d.store.val (p, v) = []
            · rw [hne]
              exact hpos
            · exact (h.short (p, v) hne).2
          · next he =>
            rw [if_neg he] at hk
            exact h.short k hk
        · by_cases hk : (q, w) = (p, v)
          · -- a batch of the version that is gone would list `u`
            by_contra hne
            cases hk
            have := h.all_of_sent hshuffle (Nat.pos_of_ne_zero hne) hu
            omega
          · rw [val_push, if_neg hk] at hw
            exact h.apart hshuffle q w hw y

theorem Batches.periodicCombine (h : Batches job n d) : Batches job n (d.periodicCombine job) := by
  have honce : ∀ q v u, (d.periodicCombine job).carried q v u ≤ 1 := by
    intro q v u
    rw [carried_periodicCombine]
    exact h.once q v u
  unfold DelayedCombiner.periodicCombine at honce ⊢
  split
  · next hmode =>
    rw [if_pos hmode] at honce
    refine ⟨honce, fun _ _ hm => absurd hm not_mem_nil, fun _ hk => absurd rfl hk,
      fun t ht => ?_, h.ids, fun m hm => (h.sent m hm).congr rfl, h.kept, fun _ _ _ hk => absurd rfl hk⟩
    rcases mem_append.mp ht with ht | ht
    · exact h.executor t ht
    · obtain ⟨hne, heq⟩ := mem_entries ht
      refine ⟨hmode.1.le, hne, fun x hx => h.store t.1 x (heq ▸ hx), fun hshuffle => ?_⟩
      omega
  · exact h

theorem Batches.runTask (h : Batches job n d) (i : Nat) :
    ∃ d', runTask job n d i = .ok d' ∧ Batches job n d' := by
  unfold DelayedCombiner.runTask
  cases hi : d.executor[i]? with
  | none => exact ⟨d, rfl, h⟩
  | some task =>
    obtain ⟨⟨p, w⟩, xs⟩ := task
    have hmem := mem_of_getElem? hi
    obtain ⟨hmode, hbatch⟩ := h.executor _ hmem
    have hcount : ∀ q v u, d.carried q v u =
        { d with executor := d.executor.eraseIdx i }.carried q v u +
          if (p, w) = (q, v) then (xs.map Prod.fst).count u else 0 := by
      intro q v u
      unfold carried
      rw [countIn_perm (perm_cons_of_getElem? hi), countIn_cons]
      simp only
      omega
    have h₀ : Batches job n { d with executor := d.executor.eraseIdx i } := by
      refine ⟨fun q v u => ?_, h.store, h.short, fun t ht => h.executor t (mem_of_mem_eraseIdx ht),
        h.ids, fun m hm => (h.sent m hm).congr rfl, h.kept,
        fun hshuffle q v hv u => ?_⟩
      · have hone := h.once q v u
        rw [hcount] at hone
        omega
      · have hzero := h.apart hshuffle q v hv u
        rw [countIn_perm (perm_cons_of_getElem? hi), countIn_cons] at hzero
        show countIn Prod.fst (q, v) u (d.executor.eraseIdx i) + tokensIn d.sent q v u = 0
        omega
    have hone : ∀ u, { d with executor := d.executor.eraseIdx i }.carried p w u +
        (xs.map Prod.fst).count u ≤ 1 := by
      intro u
      have := h.once p w u
      rw [hcount, if_pos rfl] at this
      exact this
    have hnd : (xs.map Prod.fst).Nodup := by
      refine nodup_iff_count_le_one.mpr fun u => ?_
      have := hone u
      omega
    obtain ⟨d', hd', hb⟩ := h₀.prepareMsgAndSend hbatch hnd
      (fun u hu => by
        have h₁ := hone u
        have h₂ : 0 < (xs.map Prod.fst).count u := count_pos_iff.mpr hu
        omega)
      (fun hshuffle => by
        by_contra hne
        obtain ⟨x, hx⟩ := exists_mem_of_ne_nil xs hbatch.ne_nil
        have hzero := h.apart hshuffle p w hne x.1
        have hpos : 0 < countIn Prod.fst (p, w) x.1 d.executor :=
          countIn_pos.mpr ⟨_, hmem, rfl, mem_map_of_mem hx⟩
        omega)
    refine ⟨d', ?_, hb⟩
    unfold combined at hd'
    rw [if_neg (by omega)] at hd'
    show combineSerializeSend job n _ (p, w) xs = _
    unfold combineSerializeSend
    rw [check_pos hbatch.ne_nil]
    exact hd'

omit [LinearOrder K] in
theorem store_addStream {u v p : Int} {stream : List (K × M)}
    (h : DelayedCombiner.addStream job n d u v p stream = .ok d') {k : Int × Int} (hk : k ≠ (p, v)) :
    d'.store.val k = d.store.val k := by
  unfold DelayedCombiner.addStream at h
  split at h
  · rw [(prepareMsgAndSend_sent h).1]
  · split at h
    · cases h
      rfl
    · simp only at h
      split at h
      · cases h
        show ((d.store.push (p, v) (u, stream)).erase (p, v)).val k = _
        rw [val_erase, if_neg hk, val_push, if_neg hk]
      · cases h
        show (d.store.push (p, v) (u, stream)).val k = _
        rw [val_push, if_neg hk]

theorem store_runTask {i : Nat} (h : DelayedCombiner.runTask job n d i = .ok d') :
    d'.store = d.store := by
  unfold DelayedCombiner.runTask at h
  split at h
  · cases h
    rfl
  · obtain ⟨_, _, h⟩ := bind_eq_ok.mp h
    rw [(prepareMsgAndSend_sent h).1]

end Steps

end DelayedCombiner

end Tangram
