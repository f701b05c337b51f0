import Tangram.Cache.Requests

/-!
# The queue of requested versions

`requesting_versions_` of one partition is extended by `FetchPartRequest` and pruned by the replies
and by `FinishPart`.  It is strictly increasing, and its first version is what the controller
is asked for, unless a grant is held:

    toController  =  [head of requestingVersions]    without a grant
    toController  =  [],  requestingVersions ≠ []    with one

The `CHECK` of `TryFetchNextVersion` compares with the version of the caller that finishes.  A
caller is counted in a section after its wait, so it may be counted for a later grant than the
one it has waited for; the check holds as long as that one is not older (`queue_in_order`,
`late_caller`).
-/

namespace Tangram

open StepRun List

namespace Fetcher

variable {π : Type} {f f' : Fetcher π} {m : FetchMeta}

structure Queued (f : Fetcher π) : Prop where
  sorted : f.requestingVersions.Pairwise (· < ·)
  asked : f.localAccessCount = none →
    f.toController.map FetchMeta.version = f.requestingVersions.head?.toList
  granted : f.localAccessCount ≠ none → f.toController = [] ∧ f.requestingVersions ≠ []

theorem Queued.length_le (h : Queued f) : f.toController.length ≤ 1 := by
  by_cases hn : f.localAccessCount = none
  · rw [← length_map FetchMeta.version, h.asked hn, Option.length_toList]
    split <;> decide
  · rw [(h.granted hn).1]
    exact Nat.zero_le 1

theorem Queued.ne_nil_iff (h : Queued f) :
    f.requestingVersions ≠ [] ↔ f.toController ≠ [] ∨ f.localAccessCount ≠ none := by
  by_cases hn : f.localAccessCount = none
  · have hasked := h.asked hn
    cases hq : f.requestingVersions <;> cases htc : f.toController <;> simp_all
  · exact ⟨fun _ => .inr hn, fun _ => (h.granted hn).2⟩

theorem Queued.open_request (h : Queued f) {i : Nat} (hi : f.toController[i]? = some m) :
    f.localAccessCount = none ∧ f.toController.eraseIdx i = [] ∧ f.requestingVersions ≠ [] := by
  obtain ⟨hlt, -⟩ := List.getElem?_eq_some_iff.mp hi
  have hle := h.length_le
  refine ⟨?_, length_eq_zero_iff.mp ?_, h.ne_nil_iff.mpr (.inl ?_)⟩
  · by_contra hn
    rw [(h.granted hn).1] at hlt
    exact Nat.not_lt_zero _ hlt
  · rw [length_eraseIdx_of_lt hlt]
    omega
  · exact ne_nil_of_mem (mem_of_getElem? hi)

theorem Queued.request (h : Queued f) (m : FetchMeta) : Queued (f.fetchPartRequest m) := by
  unfold fetchPartRequest
  split
  · exact h
  · cases hlast : f.requestingVersions.getLast? with
    | none =>
      have hq : f.requestingVersions = [] := getLast?_eq_none_iff.mp hlast
      have hnone := mt h.ne_nil_iff.mpr (not_not_intro hq)
      obtain ⟨htc, hn⟩ := not_or.mp hnone
      refine ⟨pairwise_singleton _ _, fun _ => ?_, fun hne => absurd hne hn⟩
      show (f.toController ++ [m]).map _ = _
      rw [not_ne_iff.mp htc]
      rfl
    | some back =>
      dsimp only
      split
      next hlt =>
        have hne : f.requestingVersions ≠ [] := ne_nil_of_mem (mem_of_getLast? hlast)
        refine ⟨pairwise_append.mpr ⟨h.sorted, pairwise_singleton _ _, ?_⟩,
          fun hn => ?_, fun hn => ⟨(h.granted hn).1, by simp⟩⟩
        · intro w hw _ he
          rw [mem_singleton.mp he]
          -- `back` is the greatest
          obtain ⟨pre, hpre⟩ := getLast?_eq_some_iff.mp hlast
          have hsorted := h.sorted
          rw [hpre] at hw hsorted
          rcases mem_append.mp hw with hw | hw
          · have := (pairwise_append.mp hsorted).2.2 w hw back (mem_singleton_self _)
            omega
          · rw [mem_singleton.mp hw]
            exact hlt
        · show _ = (_ ++ [m.version]).head?.toList
          rw [head?_append_of_ne_nil _ hne]
          exact h.asked hn
      next => exact h

/-- The queue is pruned, and the first version that is left is asked for. -/
theorem Queued.prune (h : Queued f) {v : Int} (hn : f'.localAccessCount = none)
    (hq : f'.requestingVersions = above f.requestingVersions v)
    (htc : f'.toController =
      (above f.requestingVersions v).head?.toList.map fun w => { m with version := w }) :
    Queued f' where
  sorted := by
    rw [hq]
    exact h.sorted.filter _
  asked _ := by
    rw [hq, htc, map_map]
    exact map_id _
  granted hne := absurd hn hne

/-- The check of `TryFetchNextVersion` holds for a version that the partition has. -/
theorem tryFetchNextVersion_ok {v : Int} (h : m.version ≤ v) :
    ∃ f', f.tryFetchNextVersion m v = .ok f' := by
  unfold tryFetchNextVersion
  dsimp only
  split
  · exact ⟨_, rfl⟩
  next next _ hq =>
    have hnext : v < next := (mem_above.mp (hq ▸ mem_cons_self)).2
    rw [check_pos (by omega)]
    exact ⟨_, rfl⟩

end Fetcher

namespace FetchThread

variable {π : Type}

/-- It has been counted by `TryAccessLocal`. -/
def isCounted : FetchThread π → Bool
  | .accessing _ (some _) => true
  | _ => false

/-- The version that the cache has had for it. -/
def served? : FetchThread π → Option Int
  | .woken m | .accessing m (some _) => some m.version
  | _ => none

end FetchThread

namespace FetchSystem

open Fetcher FetchThread

variable {π : Type} {isLocal : Bool} {s s' : FetchSystem π} {t : Nat}

/-- Every request is answered with a version not below it, and a `FinishPart` comes from a caller
that is counted.  A caller that is counted keeps the grant, so this grant is the current one. -/
def Proper (isLocal : Bool) (s : FetchSystem π) : FetchAction π → Prop
  | .reply i v _ => ∀ m ∈ s.fetcher.toController[i]?, m.version ≤ v
  | .finishPart t => isLocal = true → ∀ x ∈ s.threads[t]?, x.isAccessing = true → x.isCounted = true
  | _ => True

/-- Besides, no grant is older than one that a caller has seen which is still to be counted. -/
def InOrder (isLocal : Bool) (s : FetchSystem π) (a : FetchAction π) : Prop :=
  Proper isLocal s a ∧
    match a with
    | .reply _ v _ => isLocal = true → ∀ x ∈ s.threads, ∀ w ∈ x.served?, w ≤ v
    | _ => True

instance (isLocal : Bool) (s : FetchSystem π) : (a : FetchAction π) → Decidable (Proper isLocal s a)
  | .fetchPart .. | .push _ | .wake _ | .access _ | .finishPart _ | .fetchPartRequest _ | .reply .. =>
    by dsimp only [Proper]; infer_instance

instance (isLocal : Bool) (s : FetchSystem π) : (a : FetchAction π) → Decidable (InOrder isLocal s a)
  | .fetchPart .. | .push _ | .wake _ | .access _ | .finishPart _ | .fetchPartRequest _ | .reply .. =>
    by dsimp only [InOrder]; infer_instance

/-- The books of a local partition. -/
structure Counted (s : FetchSystem π) : Prop where
  cold : s.fetcher.localAccessCount = none →
    s.fetcher.partitionCache = none ∧ s.threads.countP isCounted = 0
  hot : ∀ n, s.fetcher.localAccessCount = some n → n = s.threads.countP isCounted ∧
    s.fetcher.partitionCache.isSome ∧
    ∃ v, s.fetcher.partitionVersions = some v ∧ ∀ x ∈ s.threads, ∀ w ∈ x.served?, w ≤ v

/-- A thread that is not counted moves on, and may be counted. -/
theorem Counted.set (h : Counted s) {x y : FetchThread π} (ht : s.threads[t]? = some x)
    (hx : x.isCounted = false) {c : Option Int}
    (hc : c = s.fetcher.localAccessCount.map (· + if y.isCounted then 1 else 0))
    (hcold : s.fetcher.localAccessCount = none → y.isCounted = false)
    (hy : ∀ v, s.fetcher.partitionVersions = some v → ∀ w ∈ y.served?, w ≤ v)
    (q : List (Nat × FetchMeta)) :
    Counted { s with
      fetcher := { s.fetcher with localAccessCount := c }
      threads := s.threads.set t y
      workQueue := q } := by
  have hcount := countP_set_thread (y := y) isCounted ht
  rw [hx] at hcount
  constructor
  · intro hn
    have hn : s.fetcher.localAccessCount = none := Option.map_eq_none_iff.mp (hc.symm.trans hn)
    obtain ⟨hpc, hzero⟩ := h.cold hn
    rw [hcold hn, hzero] at hcount
    exact ⟨hpc, hcount⟩
  · intro n hn
    obtain ⟨k, hk, hkn⟩ := Option.map_eq_some_iff.mp (hc.symm.trans hn)
    obtain ⟨heq, hpc, v, hv, hall⟩ := h.hot k hk
    refine ⟨?_, hpc, v, hv, fun z hz => ?_⟩
    · show n = ((s.threads.set t y).countP isCounted : Int)
      split at hkn <;> simp_all
    · rcases mem_set_cases hz with rfl | hz
      · exact hy v hv
      · exact hall z hz

/-- What holds in every run. -/
structure Books (isLocal : Bool) (s : FetchSystem π) : Prop where
  queued : Queued s.fetcher
  counted : isLocal = true → Counted s
  remote : isLocal = false → s.fetcher.localAccessCount = none

theorem Books.move (h : Books isLocal s) {x y : FetchThread π} (ht : s.threads[t]? = some x)
    (hx : x.isCounted = false) (hc : y.isCounted = false)
    (hy : ∀ v, s.fetcher.partitionVersions = some v → ∀ w ∈ y.served?, w ≤ v)
    (q : List (Nat × FetchMeta)) :
    Books isLocal { s with threads := s.threads.set t y, workQueue := q } where
  queued := h.queued
  counted hl := (h.counted hl).set ht hx (by rw [hc]; simp) (fun _ => hc) hy q
  remote := h.remote

theorem queued_tryAccessLocal {f : Fetcher π} (h : Queued f) : Queued f.tryAccessLocal where
  sorted := h.sorted
  asked hn := h.asked (Option.map_eq_none_iff.mp hn)
  granted hn := h.granted (mt Option.map_eq_none_iff.mpr hn)

theorem Books.take (h : Books isLocal s) {x : FetchThread π} {m : FetchMeta}
    (ht : s.threads[t]? = some x) (hx : x.isCounted = false)
    (hm : ∀ v, s.fetcher.partitionVersions = some v → isLocal = true →
      s.fetcher.localAccessCount ≠ none → m.version ≤ v) :
    Books isLocal { s with
      fetcher := s.fetcher.tryAccessLocal
      threads := s.threads.set t (.accessing m s.fetcher.partitionCache) } where
  queued := queued_tryAccessLocal h.queued
  counted hl := by
    have hcount := h.counted hl
    cases hn : s.fetcher.localAccessCount with
    | none =>
      have hpc := (hcount.cold hn).1
      rw [hpc]
      exact hcount.set ht hx (by rw [hn]; rfl) (fun _ => rfl) (fun _ _ _ hw => by cases hw) _
    | some n =>
      obtain ⟨p, hp⟩ := Option.isSome_iff_exists.mp (hcount.hot n hn).2.1
      rw [hp]
      refine hcount.set (y := .accessing m (some p)) ht hx rfl
        (fun h0 => by rw [hn] at h0; cases h0) (fun v hv w hw => ?_) _
      cases Option.mem_some.mp hw
      exact hm v hv hl (by rw [hn]; exact nofun)
  remote hl := by rw [tryAccessLocal, h.remote hl]; rfl

theorem Books.finish (h : Books isLocal s) {m : FetchMeta} {p : Option π} {f : Fetcher π}
    (ht : s.threads[t]? = some (.accessing m p))
    (hp : isLocal = true → (FetchThread.accessing m p).isCounted = true)
    (hf : s.fetcher.finishPart m = .ok f) :
    Books isLocal { s with fetcher := f, threads := s.threads.set t .idle } := by
  have hcount := countP_set_thread (y := .idle) isCounted ht
  rcases finishPart_eq_ok hf with ⟨hn, rfl⟩ | ⟨n, hn, hlt, rfl⟩ | ⟨hn, rfl⟩
  · refine ⟨h.queued, fun hl => ?_, h.remote⟩
    have hpos := ((h.counted hl).cold hn).2
    rw [hp hl, hpos] at hcount
    simp [isCounted] at hcount
  · refine ⟨⟨h.queued.sorted, nofun, fun _ => h.queued.granted (by rw [hn]; exact nofun)⟩,
      fun hl => ⟨nofun, fun k hk => ?_⟩, fun hl => ?_⟩
    · obtain ⟨heq, hpc, v, hv, hall⟩ := (h.counted hl).hot n hn
      cases hk
      rw [hp hl] at hcount
      simp only [isCounted, if_true, Bool.false_eq_true, if_false] at hcount
      refine ⟨?_, hpc, v, hv, fun z hz => ?_⟩
      · show n - 1 = ((s.threads.set t .idle).countP isCounted : Int)
        omega
      · rcases mem_set_cases hz with rfl | hz
        · exact nofun
        · exact hall z hz
    · rw [h.remote hl] at hn
      cases hn
  · obtain ⟨htc, -⟩ := h.queued.granted (by rw [hn]; exact nofun)
    refine ⟨h.queued.prune rfl rfl (by rw [htc]; rfl), fun hl => ⟨fun _ => ⟨rfl, ?_⟩, nofun⟩,
      fun _ => rfl⟩
    have heq := ((h.counted hl).hot 1 hn).1
    rw [hp hl] at hcount
    simp only [isCounted, if_true, Bool.false_eq_true, if_false] at hcount
    show (s.threads.set t .idle).countP isCounted = 0
    omega

theorem books_step {a : FetchAction π} (h : Books isLocal s) (ha : InOrder isLocal s a)
    (hstep : step isLocal s a = .ok s') : Books isLocal s' := by
  cases step_change hstep with
  | skip => exact h
  | hit t m ht hs =>
    refine h.take ht rfl fun v hv _ _ => ?_
    obtain ⟨u, hu, hle⟩ := isVersionSatisfied_iff.mp hs
    rwa [Option.some.inj (hv.symm.trans hu)]
  | miss t m ht => exact h.move ht rfl rfl (fun _ _ _ hw => by cases hw) _
  | push t m ht => exact h.move ht rfl rfl (fun _ _ _ hw => by cases hw) _
  | wake t m ht hs =>
    refine h.move ht rfl rfl (fun v hv w hw => ?_) _
    cases Option.mem_some.mp hw
    obtain ⟨u, hu, hle⟩ := isVersionSatisfied_iff.mp hs
    rwa [Option.some.inj (hv.symm.trans hu)]
  | access t m ht =>
    refine h.take ht rfl fun v hv hl hn => ?_
    obtain ⟨n, hn⟩ := Option.ne_none_iff_exists'.mp hn
    obtain ⟨-, -, u, hu, hall⟩ := (h.counted hl).hot n hn
    rw [Option.some.inj (hv.symm.trans hu)]
    exact hall _ (mem_of_getElem? ht) _ rfl
  | finishPart t m p f ht hf => exact h.finish ht (fun hl => ha.1 hl _ ht rfl) hf
  | request i t m hi =>
    obtain ⟨hv, hc, hn⟩ := fetchPartRequest_books s.fetcher m
    refine ⟨h.queued.request m, fun hl => ⟨fun h0 => ?_, fun k hk => ?_⟩, fun hl => ?_⟩
    · rw [hc]
      exact (h.counted hl).cold (hn ▸ h0)
    · rw [hv, hc]
      exact (h.counted hl).hot k (hn ▸ hk)
    · exact hn.trans (h.remote hl)
  | replyLocal i m v p hi hl hn =>
    obtain ⟨-, htc, hq⟩ := h.queued.open_request hi
    refine ⟨⟨h.queued.sorted, nofun, fun _ => ⟨htc, hq⟩⟩, fun _ => ⟨nofun, fun k hk => ?_⟩,
      fun h0 => by rw [hl] at h0; cases h0⟩
    cases hk
    refine ⟨?_, rfl, v, rfl, ha.2 hl⟩
    exact congrArg Nat.cast ((h.counted hl).cold hn).2.symm
  | replyRemote i m v p hi hl =>
    obtain ⟨hn, htc, -⟩ := h.queued.open_request hi
    refine ⟨h.queued.prune hn rfl (by rw [htc]; rfl), fun h0 => ?_, fun _ => hn⟩
    rw [hl] at h0
    cases h0

/-- No check fails. -/
theorem Books.step_ok (h : Books isLocal s) {a : FetchAction π} (ha : Proper isLocal s a) :
    ∃ s', step isLocal s a = .ok s' := by
  cases a with
  | finishPart t =>
    simp only [step]
    split
    next m p ht =>
      suffices ∃ f, s.fetcher.finishPart m = .ok f by
        obtain ⟨f, hf⟩ := this
        exact ⟨_, bind_eq_ok.mpr ⟨f, hf, rfl⟩⟩
      unfold finishPart
      split
      · exact ⟨_, rfl⟩
      next n hn =>
        have hl : isLocal = true := by
          cases isLocal with
          | true => rfl
          | false => rw [h.remote rfl] at hn; cases hn
        obtain ⟨heq, -, v, hv, hall⟩ := (h.counted hl).hot n hn
        have hcounted := ha hl _ ht rfl
        have hmem := mem_of_getElem? ht
        have hpos : 0 < s.threads.countP isCounted := countP_pos_iff.mpr ⟨_, hmem, hcounted⟩
        have hle : m.version ≤ v := by
          cases p with
          | none => cases hcounted
          | some p => exact hall _ hmem _ rfl
        rw [check_pos (by omega)]
        show ∃ f, (if n - 1 = 0 then _ else _) = _
        split
        · obtain ⟨f, hf⟩ := tryFetchNextVersion_ok (v := v) hle
          refine ⟨_, bind_eq_ok.mpr ⟨f, ?_, rfl⟩⟩
          rw [← hf, hv]
          rfl
        · exact ⟨_, rfl⟩
    next => exact ⟨_, rfl⟩
  | reply i v p =>
    simp only [step]
    split
    next m hi =>
      cases isLocal with
      | true =>
        obtain ⟨hn, -⟩ := h.queued.open_request hi
        exact ⟨_, bind_eq_ok.mpr ⟨_, bind_eq_ok.mpr ⟨_, check_pos hn, rfl⟩, rfl⟩⟩
      | false =>
        obtain ⟨f, hf⟩ := tryFetchNextVersion_ok (m := { m with version := v }) (Int.le_refl v)
        exact ⟨_, bind_eq_ok.mpr ⟨f, hf, rfl⟩⟩
    next => exact ⟨_, rfl⟩
  | _ =>
    simp only [step]
    repeat' split
    all_goals exact ⟨_, rfl⟩

/-- **The queue.**  In every run whose grants are not older than one that a woken caller has
seen: `requesting_versions_` is strictly increasing, at most one request is open, the queue is
empty exactly when neither a request is open nor a grant held, and no check fails. -/
theorem queue_in_order (isLocal : Bool) (n : Nat) (s : FetchSystem π)
    (hs : Reach (step isLocal) (InOrder isLocal) (init π n) s) :
    s.fetcher.requestingVersions.Pairwise (· < ·) ∧ s.fetcher.toController.length ≤ 1 ∧
    (s.fetcher.requestingVersions ≠ [] ↔
      s.fetcher.toController ≠ [] ∨ s.fetcher.localAccessCount ≠ none) ∧
    ∀ a, InOrder isLocal s a → ∃ s', step isLocal s a = .ok s' := by
  have h : Books isLocal s := by
    refine hs.induct (P := Books isLocal) ⟨⟨.nil, fun _ => rfl, nofun⟩, fun _ => ?_, fun _ => rfl⟩
      fun _ _ _ _ h ha hstep => books_step h ha hstep
    refine ⟨fun _ => ⟨rfl, ?_⟩, nofun⟩
    exact countP_eq_zero.mpr fun x hx => by rw [eq_of_mem_replicate hx]; exact nofun
  exact ⟨h.queued.sorted, h.queued.length_le, h.queued.ne_nil_iff, fun a ha => h.step_ok ha.1⟩

theorem queue_in_order_askLater :
    ∃ s, run (step true) (init Unit 2) askLater = .ok s ∧
      s.fetcher.requestingVersions.Pairwise (· < ·) ∧ s.fetcher.toController.length ≤ 1 :=
  have h := queue_in_order true 2 _ (reach_of_run_ok askLater (by decide) rfl)
  ⟨_, rfl, h.1, h.2.1⟩

/-- Thread 0 has waited for version 5 and is awake; thread 1 ends that grant.  Versions 2 and 4
are requested, and the controller answers the first with version 3. -/
def lateCaller : List (FetchAction Unit) :=
  let ask (version : Int) : FetchMeta := { askZero with version }
  [.fetchPart 0 (ask 5), .push 0, .fetchPartRequest 0, .reply 0 5 (), .wake 0,
    .fetchPart 1 (ask 0), .finishPart 1, .fetchPart 1 (ask 2), .push 1, .fetchPartRequest 0,
    .fetchPart 2 (ask 4), .push 2, .fetchPartRequest 0, .reply 0 3 (), .access 0]

/-- Then thread 0 is counted for this grant, and version 4, the next, is not above its own. -/
theorem late_caller :
    ∃ s, Reach (step true) (Proper true) (init Unit 3) s ∧ Proper true s (.finishPart 0) ∧
      step true s (.finishPart 0) = .error .tryFetchNextVersion :=
  ⟨_, reach_of_run_ok lateCaller (by decide) rfl, by decide, rfl⟩

end FetchSystem

end Tangram
