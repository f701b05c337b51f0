import Tangram.Cluster.Isolation
import Tangram.Worker.Batches

/-!
# A combiner at work

A combiner between the calls of `AddMapOutput`, the rounds of `PeriodicCombine` and the
tasks of its executor.  A call holds `mu_` while it goes through the update partitions, so
no other call and no round gets in between; the tasks do not take the lock.

When all local partitions have given their output the store is empty and each output is in
one batch: at once in the modes that do not use the timer, after the next round in the one
that does (`batches_once`).
-/

namespace Tangram

open StepRun List

variable {K M O B : Type}

/-- `call` is the call of `AddMapOutput` that holds the lock, with the partitions it has not come
to; `outputs` are all calls so far. -/
structure Combining (K M B : Type) where
  d : DelayedCombiner K M B
  call : Option (Int × Int × List Int)
  outputs : List (Int × Int)

/-- `addStream` is the next turn of the call. -/
inductive CombineEvent
  | addMapOutput (upstreamPartId version : Int)
  | addStream
  | periodicCombine
  | runTask (i : Nat)
deriving DecidableEq, Repr

namespace Combining

open DelayedCombiner

def init : Combining K M B := ⟨.init, none, []⟩

section Model

variable (job : MapJoin K M O B) (n : Int)

def step [LinearOrder K] (s : Combining K M B) :
    CombineEvent → Except StreamCheck (Combining K M B)
  | .addMapOutput u v => .ok { s with
      call := some (u, v, job.updateParts)
      outputs := s.outputs ++ [(u, v)] }
  | .addStream =>
    match s.call with
    | none => .ok s
    | some (_, _, []) => .ok { s with call := none }
    | some (u, v, p :: ps) => do
      let d ← addStream job n s.d u v p (outputBuffer job.mapper (job.map u v) p)
      return { s with d := d, call := some (u, v, ps) }
  | .periodicCombine => .ok { s with d := s.d.periodicCombine job }
  | .runTask i => do
    let d ← runTask job n s.d i
    return { s with d := d }

/-- Each local partition gives its output for a version once. -/
def Enabled (s : Combining K M B) : CombineEvent → Prop
  | .addMapOutput u v => s.call = none ∧ u ∈ locals job n ∧ (u, v) ∉ s.outputs
  | .addStream => s.call.isSome
  | .periodicCombine => s.call = none
  | .runTask i => i < s.d.executor.length

instance (s : Combining K M B) (e : CombineEvent) : Decidable (Enabled job n s e) := by
  cases e <;> unfold Enabled <;> infer_instance

end Model

/-- The stream of `u` for version `w` of `p` was handed over. -/
def Contributed (s : Combining K M B) (p w u : Int) : Prop :=
  (u, w) ∈ s.outputs ∧ ∀ c ∈ s.call, (c.1, c.2.1) = (u, w) → p ∉ c.2.2

instance (s : Combining K M B) (p w u : Int) : Decidable (Contributed s p w u) := by
  unfold Contributed; infer_instance

/-! ## Accounts -/

variable {job : MapJoin K M O B} {n : Int} {s s' : Combining K M B}

/-- A call that no task interrupts is `addMapOutput`. -/
theorem run_addMapOutput [LinearOrder K] (hfree : s.call = none) (u v : Int) :
    run (Combining.step job n) s
        (.addMapOutput u v :: List.replicate (job.updateParts.length + 1) .addStream) =
      (addMapOutput job n s.d u v).map fun d => { s with d := d, outputs := s.outputs ++ [(u, v)] } := by
  have hturns : ∀ (ps : List Int) (d : DelayedCombiner K M B) (out : List (Int × Int)),
      run (Combining.step job n) ⟨d, some (u, v, ps), out⟩
          (List.replicate (ps.length + 1) .addStream) =
        (ps.foldlM (fun d p => addStream job n d u v p (outputBuffer job.mapper (job.map u v) p))
          d).map (⟨·, none, out⟩) := by
    intro ps
    induction ps with
    | nil => exact fun _ _ => rfl
    | cons p ps ih =>
      intro d out
      rw [length_cons, replicate_succ, foldlM_cons, run, Combining.step]
      dsimp only
      cases addStream job n d u v p (outputBuffer job.mapper (job.map u v) p) with
      | error e => rfl
      | ok d => exact ih d out
  obtain ⟨d, call, out⟩ := s
  subst hfree
  exact hturns job.updateParts d (out ++ [(u, v)])

theorem run_addMapOutput_twoNodes :
    run (Combining.step (twoNodes (-1) 1 0 0) 1) init
        [.addMapOutput 0 0, .addStream, .addStream, .addStream] =
      (addMapOutput (twoNodes (-1) 1 0 0) 1 .init 0 0).map (⟨·, none, [(0, 0)]⟩) :=
  run_addMapOutput rfl 0 0

/-- A call of `AddMapOutput` begins; nothing is handed over yet. -/
theorem contributed_addMapOutput {u v : Int} (hfree : s.call = none) (hnew : (u, v) ∉ s.outputs)
    {p : Int} (hp : p ∈ job.updateParts) (w x : Int) :
    Contributed { s with
      call := some (u, v, job.updateParts), outputs := s.outputs ++ [(u, v)] } p w x ↔
      Contributed s p w x := by
  constructor
  · rintro ⟨hmem, hcall⟩
    rcases mem_append.mp hmem with hmem | hmem
    · refine ⟨hmem, fun c hc => ?_⟩
      rw [hfree] at hc
      cases hc
    · have he := (mem_singleton.mp hmem).symm
      exact absurd hp (hcall _ rfl he)
  · rintro ⟨hmem, -⟩
    refine ⟨mem_append_left _ hmem, fun c hc he => ?_⟩
    cases Option.some.inj hc
    rw [← he] at hmem
    exact absurd hmem hnew

/-- The call has handed over the stream for partition `p`. -/
theorem contributed_addStream {u v p : Int} {ps : List Int} (hcall : s.call = some (u, v, p :: ps))
    (hmem : (u, v) ∈ s.outputs) (hnot : p ∉ ps) (d : DelayedCombiner K M B) (q w x : Int) :
    Contributed { s with d := d, call := some (u, v, ps) } q w x ↔
      Contributed s q w x ∨ ((p, v) = (q, w) ∧ u = x) := by
  unfold Contributed
  rw [hcall]
  simp only [Option.mem_some_iff, forall_eq', Prod.mk.injEq, mem_cons, not_or]
  by_cases hx : u = x ∧ v = w
  · obtain ⟨rfl, rfl⟩ := hx
    by_cases hq : q = p
    · subst hq
      simp [hmem, hnot]
    · simp [hmem, hq, Ne.symm hq]
  · constructor
    · rintro ⟨ho, -⟩
      exact .inl ⟨ho, fun he => absurd he hx⟩
    · rintro (⟨ho, -⟩ | ⟨⟨-, hv⟩, hu⟩)
      · exact ⟨ho, fun he => absurd he hx⟩
      · exact absurd ⟨hu, hv⟩ hx

/-- The call returns. -/
theorem contributed_return {u v : Int} (hcall : s.call = some (u, v, [])) (q w x : Int) :
    Contributed { s with call := none } q w x ↔ Contributed s q w x := by
  unfold Contributed
  rw [hcall]
  simp

variable [LinearOrder K] {e : CombineEvent} {p w : Int}

/-- What holds between the events. -/
structure Accounted (job : MapJoin K M O B) (n : Int) (s : Combining K M B) : Prop where
  batches : Batches job n s.d
  home : ∀ x ∈ s.outputs, x.1 ∈ locals job n
  call : ∀ c ∈ s.call, (c.1, c.2.1) ∈ s.outputs ∧ c.2.2.Nodup ∧ ∀ p ∈ c.2.2, p ∈ job.updateParts
  carried : ∀ p ∈ job.updateParts, ∀ w u,
    s.d.carried p w u = if Contributed s p w u then 1 else 0

theorem accounted_init : Accounted job n (init : Combining K M B) where
  batches := batches_init
  home _ h := by cases h
  call _ h := by cases h
  carried _ _ _ _ := by
    rw [if_neg fun h => by cases h.1]
    rfl

/-- **One event.**  No `CHECK` fails. -/
theorem Accounted.step (h : Accounted job n s) (he : Enabled job n s e) :
    ∃ s', step job n s e = .ok s' ∧ Accounted job n s' := by
  cases e with
  | addMapOutput u v =>
    obtain ⟨hfree, hu, hnew⟩ := he
    refine ⟨_, rfl, h.batches, fun x hx => ?_, fun c hc => ?_, fun p hp w x => ?_⟩
    · rcases mem_append.mp hx with hx | hx
      · exact h.home x hx
      · rw [mem_singleton.mp hx]
        exact hu
    · cases Option.some.inj hc
      exact ⟨mem_append_right _ (mem_singleton_self _), partsOf_nodup _, fun _ hp => hp⟩
    · rw [if_congr (contributed_addMapOutput hfree hnew hp w x) rfl rfl]
      exact h.carried p hp w x
  | addStream =>
    unfold Combining.step
    obtain ⟨⟨u, v, ps⟩, hcall⟩ := Option.isSome_iff_exists.mp he
    rw [hcall]
    obtain ⟨hmem, hnd, hps⟩ := h.call _ hcall
    cases ps with
    | nil =>
      refine ⟨_, rfl, h.batches, h.home, fun c hc => absurd hc (by simp), fun p hp w x => ?_⟩
      rw [if_congr (contributed_return hcall p w x) rfl rfl]
      exact h.carried p hp w x
    | cons p ps =>
      obtain ⟨hnot, hnd⟩ := nodup_cons.mp hnd
      have hp := hps p mem_cons_self
      have hpending : ¬ Contributed s p v u := by
        intro hc
        exact hc.2 _ hcall rfl mem_cons_self
      have hzero := h.carried p hp v u
      rw [if_neg hpending] at hzero
      obtain ⟨d', hd', hb⟩ := h.batches.addStream (h.home _ hmem) hzero
      refine ⟨{ s with d := d', call := some (u, v, ps) }, ?_, hb, h.home, fun c hc => ?_,
        fun q hq w x => ?_⟩
      · simp only
        rw [hd']
        rfl
      · cases Option.some.inj hc
        exact ⟨hmem, hnd, fun q hq => hps q (mem_cons_of_mem _ hq)⟩
      · have hiff := contributed_addStream hcall hmem hnot d' q w x
        show d'.carried q w x = _
        rw [carried_addStream hd', h.carried q hq, if_congr hiff rfl rfl]
        by_cases hnew : (p, v) = (q, w) ∧ u = x
        · obtain ⟨hkey, rfl⟩ := hnew
          cases hkey
          rw [if_neg hpending, if_pos ⟨rfl, rfl⟩, if_pos (.inr ⟨rfl, rfl⟩)]
        · rw [if_neg hnew, Nat.add_zero, if_congr (or_iff_left hnew).symm rfl rfl]
  | periodicCombine =>
    refine ⟨_, rfl, h.batches.periodicCombine, h.home, h.call, fun p hp w x => ?_⟩
    show (s.d.periodicCombine job).carried p w x = _
    rw [carried_periodicCombine]
    exact h.carried p hp w x
  | runTask i =>
    obtain ⟨d', hd', hb⟩ := h.batches.runTask i
    refine ⟨{ s with d := d' }, ?_, hb, h.home, h.call, fun p hp w x => ?_⟩
    · show (runTask job n s.d i >>= _) = _
      rw [hd']
      rfl
    · show d'.carried p w x = _
      rw [carried_runTask hd']
      exact h.carried p hp w x

theorem accounted_reach (h : Accounted job n s)
    (hs : Reach (Combining.step job n) (Enabled job n) s s') : Accounted job n s' := by
  refine hs.induct h fun t e t' _ ht he hstep => ?_
  obtain ⟨t'', hstep', ht'⟩ := ht.step he
  rw [hstep'] at hstep
  cases hstep
  exact ht'

/-! ## When all have contributed -/

/-- What was handed over stays so. -/
theorem Contributed.step (he : Enabled job n s e) (hstep : Combining.step job n s e = .ok s')
    {p w u : Int} (h : Contributed s p w u) : Contributed s' p w u := by
  cases e with
  | addMapOutput u' v =>
    obtain ⟨-, -, hnew⟩ := he
    cases hstep
    refine ⟨mem_append_left _ h.1, fun c hc hkey => ?_⟩
    cases Option.some.inj hc
    exact absurd (hkey ▸ h.1) hnew
  | addStream =>
    unfold Combining.step at hstep
    obtain ⟨⟨u', v, ps⟩, hcall⟩ := Option.isSome_iff_exists.mp he
    rw [hcall] at hstep
    cases ps with
    | nil =>
      cases hstep
      exact ⟨h.1, fun c hc => absurd hc (by simp)⟩
    | cons q ps =>
      obtain ⟨d', -, hstep⟩ := bind_eq_ok.mp hstep
      cases hstep
      refine ⟨h.1, fun c hc hkey hp => ?_⟩
      cases Option.some.inj hc
      exact h.2 _ hcall hkey (mem_cons_of_mem _ hp)
  | periodicCombine =>
    cases hstep
    exact h
  | runTask i =>
    obtain ⟨d', -, hstep⟩ := bind_eq_ok.mp hstep
    cases hstep
    exact h

/-- What all partitions have contributed to stays out of the store. -/
theorem Accounted.store_step (h : Accounted job n s) (he : Enabled job n s e)
    (hstep : Combining.step job n s e = .ok s') (hall : ∀ u ∈ locals job n, Contributed s p w u)
    (hnil : s.d.store.val (p, w) = []) : s'.d.store.val (p, w) = [] := by
  cases e with
  | addMapOutput u v =>
    cases hstep
    exact hnil
  | addStream =>
    unfold Combining.step at hstep
    obtain ⟨⟨u, v, ps⟩, hcall⟩ := Option.isSome_iff_exists.mp he
    rw [hcall] at hstep
    cases ps with
    | nil =>
      cases hstep
      exact hnil
    | cons q ps =>
      obtain ⟨d', hd', hstep⟩ := bind_eq_ok.mp hstep
      cases hstep
      -- the call has not come to `q`, so it is not the partition
      have hother : (p, w) ≠ (q, v) := by
        intro hkey
        cases hkey
        have hlocal := h.home _ (h.call _ hcall).1
        exact (hall u hlocal).2 _ hcall rfl mem_cons_self
      exact (store_addStream hd' hother).trans hnil
  | periodicCombine =>
    cases hstep
    show (s.d.periodicCombine job).store.val (p, w) = []
    unfold periodicCombine
    split
    · rfl
    · exact hnil
  | runTask i =>
    obtain ⟨d', hd', hstep⟩ := bind_eq_ok.mp hstep
    cases hstep
    show d'.store.val (p, w) = []
    rw [store_runTask hd']
    exact hnil

/-- The batches, in the executor and on their way. -/
def batchesOf (d : DelayedCombiner K M B) : List ((Int × Int) × List Int) :=
  d.executor.map (fun t => (t.1, t.2.map Prod.fst)) ++ d.sent.map JoinMeta.entry

/-- Every local partition is in one batch of the version, and none of it is in the store. -/
structure Settled (job : MapJoin K M O B) (n : Int) (s : Combining K M B) (p w : Int) : Prop where
  store : s.d.store.val (p, w) = []
  batch : ∀ u ∈ locals job n,
    (batchesOf s.d).countP (fun b => b.1 = (p, w) ∧ u ∈ b.2) = 1
  sent : s.d.executor = [] → ∀ u ∈ locals job n, s.d.sent.countP (·.Covers p w u) = 1

theorem Accounted.settled (h : Accounted job n s) (hp : p ∈ job.updateParts)
    (hall : ∀ u ∈ locals job n, Contributed s p w u) (hnil : s.d.store.val (p, w) = []) :
    Settled job n s p w := by
  have hone : ∀ u ∈ locals job n,
      Multimap.countIn Prod.fst (p, w) u s.d.executor + tokensIn s.d.sent p w u = 1 := by
    intro u hu
    have hcarried := h.carried p hp w u
    rw [if_pos (hall u hu), DelayedCombiner.carried, hnil, map_nil, count_nil] at hcarried
    omega
  refine ⟨hnil, fun u hu => ?_, fun hexec u hu => ?_⟩
  · have hsum : Multimap.countIn id (p, w) u (batchesOf s.d) = 1 := by
      rw [batchesOf, Multimap.countIn_append, Multimap.countIn_map, ← hone u hu]
      rfl
    have := Multimap.countP_eq_one hsum
    simpa using this
  · have hsum := hone u hu
    rw [hexec, Multimap.countIn_nil, Nat.zero_add] at hsum
    exact countP_covers_eq_one hsum

/-- Without the timer, the store is empty once all have contributed. -/
theorem Accounted.store_nil (h : Accounted job n s)
    (hmode : ¬ (0 < job.combineTimeout ∧ job.combineTimeout ≤ kMaxCombineTimeout))
    (hp : p ∈ job.updateParts) (hall : ∀ u ∈ locals job n, Contributed s p w u) :
    s.d.store.val (p, w) = [] := by
  by_contra hne
  obtain ⟨htimeout, hshort⟩ := h.batches.short (p, w) hne
  have hshuffle : kMaxCombineTimeout < job.combineTimeout := by omega
  have hsub : locals job n ⊆ (s.d.store.val (p, w)).map Prod.fst := by
    intro u hu
    have hone := h.carried p hp w u
    have hrest := h.batches.apart hshuffle p w hne u
    rw [if_pos (hall u hu), DelayedCombiner.carried] at hone
    apply count_pos_iff.mp
    omega
  have hnd : (locals job n).Nodup := (partsOf_nodup _).filter _
  have hle := (hnd.subperm hsub).length_le
  rw [length_map] at hle
  omega

theorem Accounted.settled_reach (h : Accounted job n s) (hp : p ∈ job.updateParts)
    (hall : ∀ u ∈ locals job n, Contributed s p w u) (hnil : s.d.store.val (p, w) = [])
    (hs : Reach (Combining.step job n) (Enabled job n) s s') : Settled job n s' p w := by
  have hkept : Accounted job n s' ∧ (∀ u ∈ locals job n, Contributed s' p w u) ∧
      s'.d.store.val (p, w) = [] := by
    refine hs.induct (P := fun t => Accounted job n t ∧
      (∀ u ∈ locals job n, Contributed t p w u) ∧ t.d.store.val (p, w) = [])
      ⟨h, hall, hnil⟩ fun t e t' _ ht he hstep => ?_
    obtain ⟨hacc, hcontr, hstore⟩ := ht
    refine ⟨accounted_reach hacc (.tail .refl he hstep), fun u hu => (hcontr u hu).step he hstep, ?_⟩
    exact hacc.store_step he hstep hcontr hstore
  exact hkept.1.settled hp hkept.2.1 hkept.2.2

/-- **Every output is sent once.**  No event stops the combiner; no message repeats an output of
another, and each carries the streams of the partitions it lists; when all local partitions have
contributed to a version of `p`, each is in one batch: at once without the timer, and with it
after the next round. -/
theorem batches_once (hs : Reach (Combining.step job n) (Enabled job n) init s) :
    (∀ e, Enabled job n s e → ∃ s', Combining.step job n s e = .ok s') ∧
    (∀ p w u, s.d.sent.countP (·.Covers p w u) ≤ 1) ∧
    (∀ m ∈ s.d.sent, Conveys job n s.d m) ∧
    ∀ p ∈ job.updateParts, ∀ w, (∀ u ∈ locals job n, Contributed s p w u) →
      (¬ (0 < job.combineTimeout ∧ job.combineTimeout ≤ kMaxCombineTimeout) → Settled job n s p w) ∧
      ∀ s' s'', Enabled job n s .periodicCombine → Combining.step job n s .periodicCombine = .ok s' →
        Reach (Combining.step job n) (Enabled job n) s' s'' →
        0 < job.combineTimeout → job.combineTimeout ≤ kMaxCombineTimeout → Settled job n s'' p w := by
  have h := accounted_reach accounted_init hs
  refine ⟨fun e he => ?_, fun p w u => ?_, h.batches.sent, fun p hp w hall => ⟨fun hmode => ?_, ?_⟩⟩
  · obtain ⟨s', hstep, -⟩ := h.step he
    exact ⟨s', hstep⟩
  · have hone := h.batches.once p w u
    have hle : s.d.sent.countP (·.Covers p w u) ≤ _ := countP_covers_le s.d.sent
    unfold carried at hone
    omega
  · exact h.settled hp hall (h.store_nil hmode hp hall)
  · intro s' s'' he hstep hreach hpos hle
    have h' := accounted_reach h (.tail .refl he hstep)
    have hall' : ∀ u ∈ locals job n, Contributed s' p w u :=
      fun u hu => (hall u hu).step he hstep
    refine h'.settled_reach hp hall' ?_ hreach
    cases hstep
    show (s.d.periodicCombine job).store.val (p, w) = []
    unfold periodicCombine
    rw [if_pos ⟨hpos, hle⟩]
    rfl

def oneIteration (combineTimeout : Int) : MapJoin Int Int (Int × Int) Int :=
  twoNodes (-1) 1 0 combineTimeout

/-- Two map partitions on node 1, an update partition on each node. -/
def bothMaps (combineTimeout : Int) : MapJoin Int Int (Int × Int) Int :=
  { oneIteration combineTimeout with
    updateCollectionId := 1
    partToNode := fun cid => if cid = 0 then [1, 1] else [1, 2]
    node_mem := fun cid n h => by split at h <;> simp_all [oneIteration, twoNodes]
    update_ne_nil := by simp
    mapper_mem := fun k => by
      show (if k = 1 then (1 : Int) else 0) ∈ _
      rw [mem_partsOf]
      split <;> simp }

/-- A round between the two calls, while a task of the first is still waiting. -/
def twoCalls : List CombineEvent :=
  [.addMapOutput 0 0, .addStream, .addStream, .addStream, .periodicCombine, .runTask 1,
    .addMapOutput 1 0, .addStream, .addStream, .runTask 0, .addStream]

theorem batches_once_twoCalls :
    ∃ s s' s'', Reach (Combining.step (bothMaps 100) 1) (Enabled (bothMaps 100) 1) init s ∧
      Combining.step (bothMaps 100) 1 s .periodicCombine = .ok s' ∧
      run (Combining.step (bothMaps 100) 1) s' [.runTask 1, .runTask 0] = .ok s'' ∧
      s''.d.executor = [] ∧ ∀ u ∈ locals (bothMaps 100) 1, s''.d.sent.countP (·.Covers 1 0 u) = 1 := by
  have hok : RunOk (Combining.step (bothMaps 100) 1) (Enabled (bothMaps 100) 1) init twoCalls := by
    decide +kernel
  have hrun : Ends (Combining.step (bothMaps 100) 1) init twoCalls fun s => s.call = none ∧
      (∀ u ∈ locals (bothMaps 100) 1, Contributed s 1 0 u) ∧
      Ends (Combining.step (bothMaps 100) 1) s [.periodicCombine] fun s' =>
        RunOk (Combining.step (bothMaps 100) 1) (Enabled (bothMaps 100) 1) s' [.runTask 1, .runTask 0] ∧
        Ends (Combining.step (bothMaps 100) 1) s' [.runTask 1, .runTask 0] fun s'' =>
          s''.d.executor = [] := by
    decide +kernel
  obtain ⟨s, hs, hcall, hall, s', hs', hok', s'', hs'', hexec⟩ := hrun
  have hreach := reach_of_run_ok twoCalls hok hs
  have hstep : Combining.step (bothMaps 100) 1 s .periodicCombine = .ok s' := by
    obtain ⟨t, ht, hnil⟩ := run_cons_ok.mp hs'
    cases hnil
    exact ht
  obtain ⟨-, -, -, hsettled⟩ := batches_once hreach
  have hdone := (hsettled 1 (by decide) 0 hall).2 s' s'' hcall hstep
    (reach_of_run_ok _ hok' hs'') (by decide) (by decide)
  exact ⟨s, s', s'', hreach, hstep, hs'', hexec, hdone.sent hexec⟩

end Combining

end Tangram
