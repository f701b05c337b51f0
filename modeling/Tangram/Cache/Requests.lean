import Tangram.Cache.Access
import Tangram.Lib.Bag

/-!
# Requests of waiting threads

A `kFetchPartRequest` is dropped when the cache has the version at that moment,
or when a version as high is in `requesting_versions_` already.  Whether its
thread is served after all depends on when the entry goes:

    runs that forget nobody  →  a waiting thread has a request to come   (fetch_not_lost)

and in other runs a thread waits for ever (`fetch_stranded`).
-/

namespace Tangram

open StepRun List

namespace FetchThread

variable {π : Type}

/-- The thread will call `FinishPart`: it has the partition, or nothing keeps it from it. -/
def WillFinish (f : Fetcher π) : FetchThread π → Prop
  | .waiting m => f.isVersionSatisfied m = true
  | .woken _ | .accessing _ _ => True
  | _ => False

theorem willFinish_of_isAccessing {f : Fetcher π} {x : FetchThread π}
    (h : x.isAccessing = true) : x.WillFinish f := by
  cases x with
  | accessing m p => trivial
  | _ => cases h

end FetchThread

namespace FetchSystem

open Fetcher FetchThread

variable {π : Type} {m : FetchMeta}

/-- What thread `t` waits for. -/
def waits? (s : FetchSystem π) (t : Nat) : Option FetchMeta :=
  match s.threads[t]? with
  | some (.waiting m) => some m
  | _ => none

theorem waits?_eq_some {s : FetchSystem π} {t : Nat} :
    s.waits? t = some m ↔ s.threads[t]? = some (.waiting m) := by
  unfold waits?
  split
  · next m' hm => simp [hm]
  · next hne =>
    refine ⟨fun h => (by cases h), fun h => absurd h (hne m)⟩

/-- Nobody is left behind: the controller answers with no less than it was asked for (this is
assumed of it); when the entry goes, no thread is between its wait and its access, and every
thread that the entry would have served still has its message in the work queue; and a message
that makes the fetcher ask for a local partition is one whose thread still waits. -/
def ForgetsNobody (isLocal : Bool) (s : FetchSystem π) : FetchAction π → Prop
  | .reply i v _ => ∀ m ∈ s.fetcher.toController[i]?, m.version ≤ v
  | .finishPart _ => s.fetcher.localAccessCount = some 1 →
    (∀ x ∈ s.threads, x.isWoken = false) ∧
    ∀ t < s.threads.length, ∀ m ∈ s.waits? t,
      s.fetcher.isVersionSatisfied m = true → (t, m) ∈ s.workQueue
  | .fetchPartRequest i => ∀ e ∈ s.workQueue[i]?,
    isLocal = true → s.fetcher.isVersionSatisfied e.2 = false → s.waits? e.1 = some e.2
  | _ => True

instance (isLocal : Bool) (s : FetchSystem π) :
    (a : FetchAction π) → Decidable (ForgetsNobody isLocal s a)
  | .fetchPart .. | .push _ | .wake _ | .access _ | .finishPart _ | .fetchPartRequest _ | .reply .. =>
    by dsimp only [ForgetsNobody]; infer_instance

theorem keepsWoken_of_forgetsNobody {isLocal : Bool} {s : FetchSystem π} {a : FetchAction π}
    (h : ForgetsNobody isLocal s a) : KeepsWoken s a := by
  cases a with
  | finishPart t => exact fun hn => (h hn).1
  | _ => trivial

/-- The queue of requested versions and the threads that wait for them. -/
structure Served (isLocal : Bool) (s : FetchSystem π) : Prop where
  /-- Without a grant the first requested version is asked for, and nothing else. -/
  asked : s.fetcher.localAccessCount = none →
    s.fetcher.toController.map FetchMeta.version = s.fetcher.requestingVersions.head?.toList
  /-- With one, nothing is asked for, and somebody will give it back. -/
  granted : ∀ n, s.fetcher.localAccessCount = some n → s.fetcher.toController = [] ∧
    s.fetcher.requestingVersions ≠ [] ∧ ∃ x ∈ s.threads, x.WillFinish s.fetcher
  /-- A copy is older than what is still requested. -/
  copy : isLocal = false → s.fetcher.localAccessCount = none ∧
    ∀ v, s.fetcher.partitionVersions = some v → ∀ w ∈ s.fetcher.requestingVersions, v < w
  /-- A local partition is requested for a thread that waits. -/
  wanted : isLocal = true → ∀ w ∈ s.fetcher.requestingVersions,
    (∀ v, s.fetcher.partitionVersions = some v → v < w) →
      ∃ m, .waiting m ∈ s.threads ∧ m.version = w
  waiting : ∀ t m, s.threads[t]? = some (.waiting m) →
    s.fetcher.isVersionSatisfied m = true ∨ (t, m) ∈ s.workQueue ∨
      ∃ w ∈ s.fetcher.requestingVersions, m.version ≤ w

theorem served_init (isLocal : Bool) (n : Nat) : Served isLocal (init π n) where
  asked _ := rfl
  granted n h := by cases h
  copy _ := ⟨rfl, fun v h => by cases h⟩
  wanted _ w h := by cases h
  waiting t m h := by cases eq_of_mem_replicate (mem_of_getElem? h)

section Changes

variable {isLocal : Bool} {s : FetchSystem π} {t i : Nat} {x y : FetchThread π}
  {q : List (Nat × FetchMeta)} {l : List (FetchThread π)}

theorem getElem?_set_cases {t' : Nat} {z : FetchThread π} (h : (l.set t y)[t']? = some z) :
    (t' = t ∧ z = y) ∨ l[t']? = some z := by
  rw [getElem?_set] at h
  split at h
  · next he =>
    split at h
    · exact .inl ⟨he.symm, (Option.some.inj h).symm⟩
    · cases h
  · exact .inr h

theorem mem_set_of_mem {z : FetchThread π} (hz : z ∈ l) (ht : l[t]? = some x) :
    z = x ∨ z ∈ l.set t y := by
  obtain ⟨j, hj⟩ := mem_iff_getElem?.mp hz
  by_cases hjt : j = t
  · subst hjt
    rw [ht] at hj
    exact .inl (Option.some.inj hj).symm
  · refine .inr (mem_of_getElem? (i := j) ?_)
    rw [getElem?_set_ne (Ne.symm hjt)]
    exact hj

/-- A thread moves on; if it waited, the partition is there for it. -/
theorem Served.move (h : Served isLocal s) (ht : s.threads[t]? = some x)
    (hgive : ∀ n, s.fetcher.localAccessCount = some n → ∃ z ∈ s.threads.set t y, z.WillFinish s.fetcher)
    (hx : ∀ m, x = .waiting m → s.fetcher.isVersionSatisfied m = true)
    (hy : ∀ m, y = .waiting m → (t, m) ∈ q) (hq : ∀ e ∈ s.workQueue, e ∈ q) :
    Served isLocal { s with threads := s.threads.set t y, workQueue := q } where
  asked := h.asked
  granted n hn := ⟨(h.granted n hn).1, (h.granted n hn).2.1, hgive n hn⟩
  copy := h.copy
  wanted hl w hw hv := by
    obtain ⟨m, hm, hver⟩ := h.wanted hl w hw hv
    rcases mem_set_of_mem (y := y) hm ht with he | hm
    · obtain ⟨v, hpv, hle⟩ := isVersionSatisfied_iff.mp (hx m he.symm)
      have := hv v hpv
      omega
    · exact ⟨m, hm, hver⟩
  waiting t' m hm := by
    rcases getElem?_set_cases hm with ⟨rfl, he⟩ | hm
    · exact .inr (.inl (hy m he.symm))
    · rcases h.waiting t' m hm with hs | hin | hw
      · exact .inl hs
      · exact .inr (.inl (hq _ hin))
      · exact .inr (.inr hw)

/-- Who would have finished still will, if the thread that moved still does. -/
theorem Served.willFinish (h : Served isLocal s) (ht : s.threads[t]? = some x)
    (hxy : x.WillFinish s.fetcher → y.WillFinish s.fetcher) (n : Int)
    (hn : s.fetcher.localAccessCount = some n) :
    ∃ z ∈ s.threads.set t y, z.WillFinish s.fetcher := by
  obtain ⟨z, hz, hfin⟩ := (h.granted n hn).2.2
  rcases mem_set_of_mem (y := y) hz ht with rfl | hz
  · obtain ⟨hlt, -⟩ := List.getElem?_eq_some_iff.mp ht
    exact ⟨y, mem_set hlt _, hxy hfin⟩
  · exact ⟨z, hz, hfin⟩

/-- The value of the count does not matter. -/
theorem Served.recount (h : Served isLocal s) {n : Int}
    (hn : s.fetcher.localAccessCount = some n) (k : Int) :
    Served isLocal { s with fetcher := { s.fetcher with localAccessCount := some k } } where
  asked h0 := by cases h0
  granted _ _ := h.granted n hn
  copy hl := by
    have := (h.copy hl).1
    rw [hn] at this
    cases this
  wanted := h.wanted
  waiting := h.waiting

theorem Served.tryAccessLocal (h : Served isLocal s) :
    Served isLocal { s with fetcher := s.fetcher.tryAccessLocal } := by
  cases hn : s.fetcher.localAccessCount with
  | none =>
    have he : s.fetcher.tryAccessLocal = s.fetcher := by
      unfold Fetcher.tryAccessLocal
      rw [hn, Option.map_none, ← hn]
    rw [he]
    exact h
  | some n =>
    have he : s.fetcher.tryAccessLocal = { s.fetcher with localAccessCount := some (n + 1) } := by
      simp [Fetcher.tryAccessLocal, hn]
    rw [he]
    exact h.recount hn (n + 1)

theorem Served.take (h : Served isLocal s) (ht : s.threads[t]? = some x) (hx : ∀ m, x ≠ .waiting m) :
    Served isLocal { s with
      fetcher := s.fetcher.tryAccessLocal
      threads := s.threads.set t (.accessing m s.fetcher.partitionCache) } := by
  have hmove := h.move (y := .accessing m s.fetcher.partitionCache) (q := s.workQueue) ht
    (h.willFinish ht fun _ => trivial) (fun m' he => absurd he (hx m'))
    (fun m' he => by cases he) fun e he => he
  exact hmove.tryAccessLocal

theorem Served.finish (h : Served isLocal s) (hheld : isLocal = true → Held s) {m : FetchMeta}
    {p : Option π} {f : Fetcher π} (ht : s.threads[t]? = some (.accessing m p))
    (hf : s.fetcher.finishPart m = .ok f)
    (ha : s.fetcher.localAccessCount = some 1 → ∀ t m, s.threads[t]? = some (.waiting m) →
      s.fetcher.isVersionSatisfied m = true → (t, m) ∈ s.workQueue) :
    Served isLocal { s with fetcher := f, threads := s.threads.set t .idle } := by
  have hloc : ∀ n, s.fetcher.localAccessCount = some n → isLocal = true := by
    intro n hn
    by_contra hl
    have := (h.copy (Bool.eq_false_iff.mpr hl)).1
    rw [hn] at this
    cases this
  rcases finishPart_eq_ok hf with ⟨hn, rfl⟩ | ⟨n, hn, hlt, rfl⟩ | ⟨hn, rfl⟩
  · exact h.move ht (fun n h' => by rw [hn] at h'; cases h') (fun m' he => by cases he)
      (fun m' he => by cases he) fun e he => he
  · -- one of the others has the partition
    have hcount := countP_set_thread (y := .idle) isAccessing ht
    simp only [isAccessing, Bool.false_eq_true, if_false, if_true] at hcount
    have he := ((hheld (hloc n hn)).hot n hn).2.2
    rw [accessors] at he
    obtain ⟨z, hz, hacc⟩ := countP_pos_iff.mp (show
      0 < (s.threads.set t .idle).countP isAccessing by omega)
    have hmove := h.move (y := .idle) (q := s.workQueue) ht
      (fun _ _ => ⟨z, hz, willFinish_of_isAccessing hacc⟩)
      (fun m' he => by cases he) (fun m' he => by cases he) fun e he => he
    exact hmove.recount hn (n - 1)
  · obtain ⟨htc, -, -⟩ := h.granted 1 hn
    obtain ⟨v, hv⟩ := Option.isSome_iff_exists.mp ((hheld (hloc 1 hn)).hot 1 hn).1
    rw [hv, Option.getD_some]
    have hset : ∀ (t' : Nat) (m' : FetchMeta), (s.threads.set t .idle)[t']? = some (FetchThread.waiting m') →
        s.threads[t']? = some (FetchThread.waiting m') := by
      intro t' m' hm
      rcases getElem?_set_cases hm with ⟨-, he⟩ | hm
      · cases he
      · exact hm
    refine ⟨fun _ => ?_, fun n h' => (by cases h'), fun hl => ?_, fun hl w hw _ => ?_,
      fun t' m' hm => ?_⟩
    · simp [htc, Function.comp_def]
    · rw [hloc 1 hn] at hl
      cases hl
    · obtain ⟨hw, hlt⟩ := mem_above.mp hw
      obtain ⟨m', hm', hver⟩ := h.wanted hl w hw fun u hu => by
        rw [hv] at hu
        cases hu
        exact hlt
      rcases mem_set_of_mem (y := .idle) hm' ht with he | hm'
      · cases he
      · exact ⟨m', hm', hver⟩
    · -- whom the entry would have served has its message queued, the others are above it
      have hm := hset t' m' hm
      by_cases hs : s.fetcher.isVersionSatisfied m' = true
      · exact .inr (.inl (ha hn t' m' hm hs))
      · rcases h.waiting t' m' hm with hs' | hin | ⟨w, hw, hle⟩
        · exact absurd hs' hs
        · exact .inr (.inl hin)
        · refine .inr (.inr ⟨w, mem_above.mpr ⟨hw, ?_⟩, hle⟩)
          by_contra hnot
          exact hs (isVersionSatisfied_iff.mpr ⟨v, hv, by omega⟩)

/-- While nothing is granted, an open request is the only one, for the first version. -/
theorem Served.open_request (h : Served isLocal s) (hn : s.fetcher.localAccessCount = none)
    (hi : s.fetcher.toController[i]? = some m) :
    s.fetcher.toController.eraseIdx i = [] ∧ m.version ∈ s.fetcher.requestingVersions := by
  have hasked := h.asked hn
  have hmem : m.version ∈ s.fetcher.requestingVersions.head?.toList := by
    rw [← hasked]
    exact mem_map_of_mem (mem_of_getElem? hi)
  rw [Option.mem_toList] at hmem
  obtain ⟨hlt, -⟩ := List.getElem?_eq_some_iff.mp hi
  have hlen : s.fetcher.toController.length = 1 := by
    rw [← length_map FetchMeta.version, hasked, hmem]
    rfl
  refine ⟨length_eq_zero_iff.mp ?_, mem_of_head? hmem⟩
  rw [length_eraseIdx_of_lt hlt, hlen]

theorem eq_or_mem_eraseIdx {e : Nat × FetchMeta} {e' : Nat × FetchMeta} (hi : q[i]? = some e')
    (he : e ∈ q) : e = e' ∨ e ∈ q.eraseIdx i :=
  mem_cons.mp ((perm_cons_of_getElem? hi).mem_iff.mp he)

theorem Served.request (h : Served isLocal s) (hi : s.workQueue[i]? = some (t, m))
    (ha : isLocal = true → s.fetcher.isVersionSatisfied m = false → s.threads[t]? = some (.waiting m)) :
    Served isLocal { s with
      fetcher := s.fetcher.fetchPartRequest m
      workQueue := s.workQueue.eraseIdx i } := by
  unfold Fetcher.fetchPartRequest
  by_cases hs : s.fetcher.isVersionSatisfied m = true
  · rw [if_pos hs]
    refine ⟨h.asked, h.granted, h.copy, h.wanted, fun t' m' hm => ?_⟩
    rcases h.waiting t' m' hm with hs' | hin | hw
    · exact .inl hs'
    · rcases eq_or_mem_eraseIdx hi hin with he | hin
      · cases he
        exact .inl hs
      · exact .inr (.inl hin)
    · exact .inr (.inr hw)
  · rw [if_neg hs]
    have hs := Bool.eq_false_iff.mpr hs
    have hver : ∀ v, s.fetcher.partitionVersions = some v → v < m.version := by
      intro v hv
      by_contra hle
      rw [isVersionSatisfied_iff.mpr ⟨v, hv, by omega⟩] at hs
      cases hs
    -- the request that was taken is covered by the queue of versions from now on
    have hwait : ∀ q' : List Int, (∀ w ∈ s.fetcher.requestingVersions, w ∈ q') →
        (∃ w ∈ q', m.version ≤ w) → ∀ t' m', s.threads[t']? = some (.waiting m') →
        s.fetcher.isVersionSatisfied m' = true ∨ (t', m') ∈ s.workQueue.eraseIdx i ∨
          ∃ w ∈ q', m'.version ≤ w := by
      intro q' hsub hcov t' m' hm
      rcases h.waiting t' m' hm with hs' | hin | ⟨w, hw, hle⟩
      · exact .inl hs'
      · rcases eq_or_mem_eraseIdx hi hin with he | hin
        · cases he
          exact .inr (.inr hcov)
        · exact .inr (.inl hin)
      · exact .inr (.inr ⟨w, hsub w hw, hle⟩)
    cases hlast : s.fetcher.requestingVersions.getLast? with
    | none =>
      have hq : s.fetcher.requestingVersions = [] := getLast?_eq_none_iff.mp hlast
      have hn : s.fetcher.localAccessCount = none := by
        by_contra hne
        obtain ⟨n, hn⟩ := Option.ne_none_iff_exists'.mp hne
        exact (h.granted n hn).2.1 hq
      have htc : s.fetcher.toController = [] := by
        have hasked := h.asked hn
        rw [hq] at hasked
        exact map_eq_nil_iff.mp hasked
      refine ⟨fun _ => ?_, fun n h' => ?_, fun hl => ⟨hn, fun v hv w hw => ?_⟩,
        fun hl w hw _ => ?_, hwait [m.version] (fun w hw => ?_) ⟨_, mem_singleton_self _, Int.le_refl _⟩⟩
      · simp [sendFetchPart, htc]
      · have h' : s.fetcher.localAccessCount = some n := h'
        rw [hn] at h'
        cases h'
      · rw [mem_singleton.mp hw]
        exact hver v hv
      · rw [mem_singleton.mp hw]
        exact ⟨m, mem_of_getElem? (ha hl hs), rfl⟩
      · rw [hq] at hw
        cases hw
    | some back =>
      have hback : back ∈ s.fetcher.requestingVersions := mem_of_getLast? hlast
      simp only
      split
      · have hhead : ∀ l : List Int, l ≠ [] → (l ++ [m.version]).head? = l.head? := by
          intro l hl
          rw [head?_append_of_ne_nil _ hl]
        have hne := ne_nil_of_mem hback
        refine ⟨fun hn => ?_, fun n h' => ?_, fun hl => ⟨(h.copy hl).1, fun v hv w hw => ?_⟩,
          fun hl w hw hv => ?_, hwait _ (fun w hw => mem_append_left _ hw)
            ⟨_, mem_append_right _ (mem_singleton_self _), Int.le_refl _⟩⟩
        · show _ = (_ ++ [m.version]).head?.toList
          rw [hhead _ hne]
          exact h.asked hn
        · obtain ⟨htc, -, hfin⟩ := h.granted n h'
          exact ⟨htc, by simp, hfin⟩
        · rcases mem_append.mp hw with hw | hw
          · exact (h.copy hl).2 v hv w hw
          · rw [mem_singleton.mp hw]
            exact hver v hv
        · rcases mem_append.mp hw with hw | hw
          · exact h.wanted hl w hw hv
          · rw [mem_singleton.mp hw]
            exact ⟨m, mem_of_getElem? (ha hl hs), rfl⟩
      · next hge =>
        exact ⟨h.asked, h.granted, h.copy, h.wanted,
          hwait _ (fun w hw => hw) ⟨back, hback, Int.not_lt.mp hge⟩⟩

theorem Served.replyLocal (h : Served isLocal s) (hheld : Held s) (hl : isLocal = true)
    (hn : s.fetcher.localAccessCount = none) {v : Int} {p : π}
    (hi : s.fetcher.toController[i]? = some m) (hv : m.version ≤ v) :
    Served isLocal { s with
      fetcher := { s.fetcher with
        partitionVersions := some v
        partitionCache := some p
        localAccessCount := some 0
        toController := s.fetcher.toController.eraseIdx i } } := by
  obtain ⟨htc, hmem⟩ := h.open_request hn hi
  have hcold := (hheld.cold hn).1
  have hvacuous : ∀ w, ∀ u, s.fetcher.partitionVersions = some u → u < w := by
    intro w u hu
    rw [hcold] at hu
    cases hu
  refine ⟨fun h0 => (by cases h0), fun n _ => ⟨htc, ne_nil_of_mem hmem, ?_⟩,
    fun h0 => ?_, fun _ w hw _ => h.wanted hl w hw (hvacuous w), fun t' m' hm => ?_⟩
  · obtain ⟨m', hm', hver⟩ := h.wanted hl m.version hmem (hvacuous _)
    exact ⟨_, hm', isVersionSatisfied_iff.mpr ⟨v, rfl, by omega⟩⟩
  · rw [hl] at h0
    cases h0
  · rcases h.waiting t' m' hm with hs' | hin | hw
    · obtain ⟨u, hu, -⟩ := isVersionSatisfied_iff.mp hs'
      rw [hcold] at hu
      cases hu
    · exact .inr (.inl hin)
    · exact .inr (.inr hw)

theorem Served.replyRemote (h : Served isLocal s) (hl : isLocal = false) {v : Int} {p : π}
    (hi : s.fetcher.toController[i]? = some m) (hv : m.version ≤ v) :
    Served isLocal { s with
      fetcher := { s.fetcher with
        partitionVersions := some v
        partitionCache := some p
        requestingVersions := above s.fetcher.requestingVersions v
        toController := s.fetcher.toController.eraseIdx i ++
          (above s.fetcher.requestingVersions v).head?.toList.map
            fun w => { m with version := w } } } := by
  obtain ⟨hn, hcopy⟩ := h.copy hl
  obtain ⟨htc, hmem⟩ := h.open_request hn hi
  refine ⟨fun _ => ?_, fun n h' => ?_, fun _ => ⟨hn, fun u hu w hw => ?_⟩, fun h0 => ?_,
    fun t' m' hm => ?_⟩
  · simp [htc, Function.comp_def]
  · have h' : s.fetcher.localAccessCount = some n := h'
    rw [hn] at h'
    cases h'
  · cases hu
    exact (mem_above.mp hw).2
  · rw [hl] at h0
    cases h0
  · rcases h.waiting t' m' hm with hs' | hin | ⟨w, hw, hle⟩
    · -- the reply is newer than the copy it replaces
      obtain ⟨u, hu, hle⟩ := isVersionSatisfied_iff.mp hs'
      have := hcopy u hu m.version hmem
      exact .inl (isVersionSatisfied_iff.mpr ⟨v, rfl, by omega⟩)
    · exact .inr (.inl hin)
    · by_cases hwv : w ≤ v
      · exact .inl (isVersionSatisfied_iff.mpr ⟨v, rfl, by omega⟩)
      · exact .inr (.inr ⟨w, mem_above.mpr ⟨hw, by omega⟩, hle⟩)

end Changes

theorem served_step {isLocal : Bool} {s s' : FetchSystem π} {a : FetchAction π}
    (h : Served isLocal s) (hheld : isLocal = true → Held s) (ha : ForgetsNobody isLocal s a)
    (hstep : step isLocal s a = .ok s') : Served isLocal s' := by
  cases step_change hstep with
  | skip => exact h
  | hit t m ht hs => exact h.take ht fun m' he => by cases he
  | miss t m ht =>
    exact h.move ht (h.willFinish ht fun hf => hf.elim) (fun m' he => by cases he)
      (fun m' he => by cases he) fun e he => he
  | push t m ht =>
    refine h.move ht (h.willFinish ht fun hf => hf.elim) (fun m' he => by cases he)
      (fun m' he => ?_) fun e he => mem_append_left _ he
    cases he
    exact mem_append_right _ (mem_singleton_self _)
  | wake t m ht hs =>
    refine h.move (y := .woken m) ht (h.willFinish ht fun _ => trivial) (fun m' he => ?_)
      (fun m' he => by cases he) fun e he => he
    cases he
    exact hs
  | access t m ht => exact h.take ht fun m' he => by cases he
  | finishPart t m p f ht hf =>
    refine h.finish hheld ht hf fun hn t' m' hm => ?_
    obtain ⟨hlt, -⟩ := List.getElem?_eq_some_iff.mp hm
    exact (ha hn).2 t' hlt m' (waits?_eq_some.mpr hm)
  | request i t m hi =>
    exact h.request hi fun hl hs => waits?_eq_some.mp (ha (t, m) hi hl hs)
  | replyLocal i m v p hi hl hn => exact h.replyLocal (hheld hl) hl hn hi (ha m hi)
  | replyRemote i m v p hi hl => exact h.replyRemote hl hi (ha m hi)

/-- **No fetch is lost.**  In every run that forgets nobody, a thread that waits for a version
finds it in the cache, or its message is still in the work queue, or a version at least as high
is in `requesting_versions_` while either the request for the first of them is open or some
thread is still to call `FinishPart`, which sends the next. -/
theorem fetch_not_lost (isLocal : Bool) (n : Nat) (s : FetchSystem π)
    (hs : Reach (step isLocal) (ForgetsNobody isLocal) (init π n) s) (t : Nat) (m : FetchMeta)
    (ht : s.threads[t]? = some (.waiting m)) :
    s.fetcher.isVersionSatisfied m = true ∨ (t, m) ∈ s.workQueue ∨
      ∃ w ∈ s.fetcher.requestingVersions, m.version ≤ w ∧
        ((∃ f ∈ s.fetcher.toController,
          s.fetcher.requestingVersions.head? = some f.version) ∨
         ∃ x ∈ s.threads, x.WillFinish s.fetcher) := by
  have hinv : (isLocal = true → Held s) ∧ Served isLocal s := by
    refine hs.induct (P := fun s => (isLocal = true → Held s) ∧ Served isLocal s)
      ⟨fun _ => held_init n, served_init isLocal n⟩ fun u a u' _ h ha hstep => ⟨fun hl => ?_, ?_⟩
    · subst hl
      exact held_step (h.1 rfl) (keepsWoken_of_forgetsNobody ha) hstep
    · exact served_step h.2 h.1 ha hstep
  obtain ⟨-, h⟩ := hinv
  rcases h.waiting t m ht with hsat | hin | ⟨w, hw, hle⟩
  · exact .inl hsat
  · exact .inr (.inl hin)
  · refine .inr (.inr ⟨w, hw, hle, ?_⟩)
    cases hn : s.fetcher.localAccessCount with
    | some k => exact .inr (h.granted k hn).2.2
    | none =>
      have hasked := h.asked hn
      obtain ⟨first, hfirst⟩ := Option.ne_none_iff_exists'.mp
        (mt head?_eq_none_iff.mp (ne_nil_of_mem hw))
      have hmem : first ∈ s.fetcher.toController.map FetchMeta.version := by
        rw [hasked, hfirst]
        exact mem_singleton_self _
      obtain ⟨f, hf, hver⟩ := mem_map.mp hmem
      exact .inl ⟨f, hf, hver ▸ hfirst⟩

/-- A later map of the second thread asks for version 1 while the first has version 0. -/
def askLater : List (FetchAction Unit) :=
  [.fetchPart 0 askZero, .push 0, .fetchPartRequest 0, .reply 0 0 (), .wake 0, .access 0,
    .fetchPart 1 { askZero with version := 1 }, .push 1, .fetchPartRequest 0, .finishPart 0]

theorem fetch_not_lost_askLater :
    ∃ s, run (step true) (init Unit 2) askLater = .ok s ∧
      s.threads[1]? = some (.waiting { askZero with version := 1 }) ∧
      s.fetcher.toController = [{ askZero with version := 1 }] ∧
      (s.fetcher.isVersionSatisfied { askZero with version := 1 } = true ∨
        (1, { askZero with version := 1 }) ∈ s.workQueue ∨
        ∃ w ∈ s.fetcher.requestingVersions, 1 ≤ w ∧
          ((∃ f ∈ s.fetcher.toController,
            s.fetcher.requestingVersions.head? = some f.version) ∨
           ∃ x ∈ s.threads, x.WillFinish s.fetcher)) :=
  ⟨_, rfl, rfl, rfl,
    fetch_not_lost true 2 _ (reach_of_run_ok askLater (by decide) rfl) 1 _ rfl⟩

/-- Both threads ask for version 0, so the second request is not entered.  The first finishes
before the second has left its wait: the entry goes and nobody asks again. -/
theorem fetch_stranded :
    ∃ s, Reach (step true) (fun _ _ => True) (init Unit 2) s ∧
      s.threads = [.idle, .waiting askZero] ∧ s.fetcher.isVersionSatisfied askZero = false ∧
      s.workQueue = [] ∧ s.fetcher.requestingVersions = [] ∧ s.fetcher.toController = [] :=
  ⟨_, reach_of_run (twoAsk ++ [.finishPart 0]) rfl, rfl, rfl, rfl, rfl, rfl⟩

end FetchSystem

end Tangram
