import Tangram.Cache.Fetcher

/-!
# Access to a fetched partition

`FetchPart` waits in one section and takes its reference in another.  Between
the two a `FinishPart` of another thread may drop the count to zero, erase the
entry and give the grant back (`fetchPart_null`).  In the runs where it does not,
a thread that `FetchPart` has returned to holds the partition (`fetchPart_held`).
-/

namespace Tangram

open StepRun List

/-! ## What the sections do -/

namespace Fetcher

variable {π : Type} {s s' : Fetcher π} {m : FetchMeta}

theorem isVersionSatisfied_iff :
    s.isVersionSatisfied m = true ↔ ∃ v, s.partitionVersions = some v ∧ m.version ≤ v := by
  unfold isVersionSatisfied
  cases s.partitionVersions <;> simp

theorem mem_above {q : List Int} {v w : Int} : w ∈ above q v ↔ w ∈ q ∧ v < w := by
  simp [above]

theorem tryFetchNextVersion_eq_ok {v : Int} (h : tryFetchNextVersion s m v = .ok s') :
    s' = { s with
      requestingVersions := above s.requestingVersions v
      toController := s.toController ++
        (above s.requestingVersions v).head?.toList.map fun w => { m with version := w } } := by
  unfold tryFetchNextVersion at h
  simp only at h
  cases hq : above s.requestingVersions v with
  | nil =>
    rw [hq] at h
    cases h
    simp
  | cons next rest =>
    rw [hq] at h
    obtain ⟨_, -, h⟩ := bind_eq_ok.mp h
    cases h
    rfl

/-- `FinishPart`: nothing is counted, or the caller was not the last one, or it was. -/
theorem finishPart_eq_ok (h : finishPart s m = .ok s') :
    (s.localAccessCount = none ∧ s' = s) ∨
    (∃ n, s.localAccessCount = some n ∧ 1 < n ∧
      s' = { s with localAccessCount := some (n - 1) }) ∨
    (s.localAccessCount = some 1 ∧ s' =
      { s with
        localAccessCount := none
        partitionVersions := none
        partitionCache := none
        requestingVersions := above s.requestingVersions (s.partitionVersions.getD 0)
        toController := s.toController ++
          (above s.requestingVersions (s.partitionVersions.getD 0)).head?.toList.map
            fun w => { m with version := w }
        finished := s.finished ++ [m] }) := by
  unfold finishPart at h
  split at h
  · next hn =>
    cases h
    exact .inl ⟨hn, rfl⟩
  · next n hn =>
    obtain ⟨_, hpos, h⟩ := bind_eq_ok.mp h
    have hpos := check_eq_ok.mp hpos
    simp only at h
    split at h
    · next h0 =>
      have h1 : n = 1 := by omega
      subst h1
      obtain ⟨f, hf, h⟩ := bind_eq_ok.mp h
      cases h
      rw [tryFetchNextVersion_eq_ok hf]
      exact .inr (.inr ⟨hn, rfl⟩)
    · next h0 =>
      cases h
      exact .inr (.inl ⟨n, hn, by omega, rfl⟩)

end Fetcher

namespace FetchThread

variable {π : Type}

def isWoken : FetchThread π → Bool
  | .woken _ => true
  | _ => false

def isAccessing : FetchThread π → Bool
  | .accessing _ _ => true
  | _ => false

end FetchThread

namespace FetchSystem

open Fetcher FetchThread

variable {π : Type}

/-- The changes of one step. -/
inductive Change (isLocal : Bool) : FetchSystem π → FetchAction π → FetchSystem π → Prop
  | skip (s : FetchSystem π) (a : FetchAction π) : Change isLocal s a s
  | hit (s : FetchSystem π) (t : Nat) (m : FetchMeta) (ht : s.threads[t]? = some .idle)
      (hs : s.fetcher.isVersionSatisfied m = true) :
      Change isLocal s (.fetchPart t m) { s with
        fetcher := s.fetcher.tryAccessLocal
        threads := s.threads.set t (.accessing m s.fetcher.partitionCache) }
  | miss (s : FetchSystem π) (t : Nat) (m : FetchMeta) (ht : s.threads[t]? = some .idle) :
      Change isLocal s (.fetchPart t m) { s with threads := s.threads.set t (.requested m) }
  | push (s : FetchSystem π) (t : Nat) (m : FetchMeta) (ht : s.threads[t]? = some (.requested m)) :
      Change isLocal s (.push t) { s with
        threads := s.threads.set t (.waiting m)
        workQueue := s.workQueue ++ [(t, m)] }
  | wake (s : FetchSystem π) (t : Nat) (m : FetchMeta) (ht : s.threads[t]? = some (.waiting m))
      (hs : s.fetcher.isVersionSatisfied m = true) :
      Change isLocal s (.wake t) { s with threads := s.threads.set t (.woken m) }
  | access (s : FetchSystem π) (t : Nat) (m : FetchMeta) (ht : s.threads[t]? = some (.woken m)) :
      Change isLocal s (.access t) { s with
        fetcher := s.fetcher.tryAccessLocal
        threads := s.threads.set t (.accessing m s.fetcher.partitionCache) }
  | finishPart (s : FetchSystem π) (t : Nat) (m : FetchMeta) (p : Option π) (f : Fetcher π)
      (ht : s.threads[t]? = some (.accessing m p)) (hf : s.fetcher.finishPart m = .ok f) :
      Change isLocal s (.finishPart t) { s with
        fetcher := f
        threads := s.threads.set t .idle }
  | request (s : FetchSystem π) (i t : Nat) (m : FetchMeta) (hi : s.workQueue[i]? = some (t, m)) :
      Change isLocal s (.fetchPartRequest i) { s with
        fetcher := s.fetcher.fetchPartRequest m
        workQueue := s.workQueue.eraseIdx i }
  | replyLocal (s : FetchSystem π) (i : Nat) (m : FetchMeta) (v : Int) (p : π)
      (hi : s.fetcher.toController[i]? = some m) (hl : isLocal = true)
      (hn : s.fetcher.localAccessCount = none) :
      Change isLocal s (.reply i v p) { s with
        fetcher := { s.fetcher with
          partitionVersions := some v
          partitionCache := some p
          localAccessCount := some 0
          toController := s.fetcher.toController.eraseIdx i } }
  | replyRemote (s : FetchSystem π) (i : Nat) (m : FetchMeta) (v : Int) (p : π)
      (hi : s.fetcher.toController[i]? = some m) (hl : isLocal = false) :
      Change isLocal s (.reply i v p) { s with
        fetcher := { s.fetcher with
          partitionVersions := some v
          partitionCache := some p
          requestingVersions := above s.fetcher.requestingVersions v
          toController := s.fetcher.toController.eraseIdx i ++
            (above s.fetcher.requestingVersions v).head?.toList.map
              fun w => { m with version := w } } }

theorem step_change {isLocal : Bool} {s s' : FetchSystem π} {a : FetchAction π}
    (h : step isLocal s a = .ok s') : Change isLocal s a s' := by
  cases a with
  | fetchPart t m =>
    simp only [step] at h
    split at h
    · next ht =>
      split at h
      · next hs =>
        cases h
        exact .hit s t m ht hs
      · cases h
        exact .miss s t m ht
    · cases h
      exact .skip s _
  | push t =>
    simp only [step] at h
    split at h
    · next m ht =>
      cases h
      exact .push s t m ht
    · cases h
      exact .skip s _
  | wake t =>
    simp only [step] at h
    split at h
    · next m ht =>
      split at h
      · next hs =>
        cases h
        exact .wake s t m ht hs
      · cases h
        exact .skip s _
    · cases h
      exact .skip s _
  | access t =>
    simp only [step] at h
    split at h
    · next m ht =>
      cases h
      exact .access s t m ht
    · cases h
      exact .skip s _
  | finishPart t =>
    simp only [step] at h
    split at h
    · next m p ht =>
      obtain ⟨f, hf, h⟩ := bind_eq_ok.mp h
      cases h
      exact .finishPart s t m p f ht hf
    · cases h
      exact .skip s _
  | fetchPartRequest i =>
    simp only [step] at h
    split at h
    · next t m hi =>
      cases h
      exact .request s i t m hi
    · cases h
      exact .skip s _
  | reply i v p =>
    simp only [step] at h
    split at h
    · next m hi =>
      cases isLocal with
      | true =>
        simp only [if_true] at h
        obtain ⟨f, hf, h⟩ := bind_eq_ok.mp h
        obtain ⟨_, hn, hf⟩ := bind_eq_ok.mp hf
        cases hf
        cases h
        exact .replyLocal s i m v p hi rfl (check_eq_ok.mp hn)
      | false =>
        simp only [Bool.false_eq_true, if_false] at h
        obtain ⟨f, hf, h⟩ := bind_eq_ok.mp h
        cases h
        rw [tryFetchNextVersion_eq_ok hf]
        exact .replyRemote s i m v p hi rfl
    · cases h
      exact .skip s _

/-! ## Who holds the partition -/

/-- The number of threads that have the partition. -/
def accessors (s : FetchSystem π) : Nat := s.threads.countP isAccessing

section Threads

variable {l : List (FetchThread π)} {t : Nat} {x y z : FetchThread π}

theorem countP_set_thread (p : FetchThread π → Bool) (hx : l[t]? = some x) :
    (l.set t y).countP p + (if p x then 1 else 0) = l.countP p + if p y then 1 else 0 := by
  obtain ⟨hlt, hget⟩ := List.getElem?_eq_some_iff.mp hx
  have hpos : p x = true → 0 < l.countP p := fun h =>
    countP_pos_iff.mpr ⟨x, hget ▸ getElem_mem hlt, h⟩
  rw [countP_set hlt, hget]
  by_cases h : p x = true
  · have := hpos h
    rw [if_pos h]
    omega
  · rw [if_neg h]
    omega

theorem mem_set_cases (h : z ∈ l.set t y) : z = y ∨ z ∈ l :=
  (mem_or_eq_of_mem_set h).symm

end Threads

/-- The books of a local partition: without an entry nobody has it, and an entry counts the
threads that do. -/
structure Held (s : FetchSystem π) : Prop where
  cold : s.fetcher.localAccessCount = none → s.fetcher.partitionVersions = none ∧
    ∀ x ∈ s.threads, x.isWoken = false ∧ x.isAccessing = false
  hot : ∀ n, s.fetcher.localAccessCount = some n → s.fetcher.partitionVersions.isSome ∧
    s.fetcher.partitionCache.isSome ∧ n = s.accessors
  given : ∀ m p, .accessing m p ∈ s.threads → p.isSome

/-- When a `FinishPart` drops the count to zero, no thread is between its wait and its access. -/
def KeepsWoken (s : FetchSystem π) : FetchAction π → Prop
  | .finishPart _ => s.fetcher.localAccessCount = some 1 → ∀ x ∈ s.threads, x.isWoken = false
  | _ => True

instance (s : FetchSystem π) (a : FetchAction π) : Decidable (KeepsWoken s a) := by
  unfold KeepsWoken
  split <;> infer_instance

theorem held_init (n : Nat) : Held (init π n) where
  cold _ := ⟨rfl, fun x hx => by rw [eq_of_mem_replicate hx]; exact ⟨rfl, rfl⟩⟩
  hot n h := by cases h
  given m p h := by cases eq_of_mem_replicate h

section Changes

variable {s s' : FetchSystem π} {t : Nat} {m : FetchMeta}

/-- A thread that neither has nor gets the partition moves. -/
theorem Held.move (h : Held s) {x y : FetchThread π} (ht : s.threads[t]? = some x)
    (hx : x.isAccessing = false) (hy : y.isAccessing = false)
    (hw : y.isWoken = true → s.fetcher.localAccessCount ≠ none) (q : List (Nat × FetchMeta)) :
    Held { s with threads := s.threads.set t y, workQueue := q } where
  cold hn := by
    obtain ⟨hv, hall⟩ := h.cold hn
    refine ⟨hv, fun z hz => ?_⟩
    rcases mem_set_cases hz with rfl | hz
    · exact ⟨Bool.eq_false_iff.mpr fun hwk => hw hwk hn, hy⟩
    · exact hall z hz
  hot n hn := by
    obtain ⟨hv, hc, he⟩ := h.hot n hn
    have hcount := countP_set_thread (y := y) isAccessing ht
    rw [hx, hy] at hcount
    exact ⟨hv, hc, he.trans (congrArg Nat.cast (by simpa [accessors] using hcount.symm))⟩
  given m' p hm := by
    rcases mem_set_cases hm with rfl | hm
    · cases hy
    · exact h.given m' p hm

/-- A thread takes its reference while the entry is there. -/
theorem Held.take (h : Held s) {x : FetchThread π} (ht : s.threads[t]? = some x)
    (hx : x.isAccessing = false) (hn : s.fetcher.localAccessCount ≠ none) :
    Held { s with
      fetcher := s.fetcher.tryAccessLocal
      threads := s.threads.set t (.accessing m s.fetcher.partitionCache) } := by
  obtain ⟨n, hn⟩ := Option.ne_none_iff_exists'.mp hn
  obtain ⟨hv, hc, he⟩ := h.hot n hn
  have hcount := countP_set_thread (y := .accessing m s.fetcher.partitionCache) isAccessing ht
  rw [hx] at hcount
  refine ⟨fun h0 => ?_, fun k hk => ⟨hv, hc, ?_⟩, fun m' p hm => ?_⟩
  · simp [tryAccessLocal, hn] at h0
  · have hk : n + 1 = k := by simpa [tryAccessLocal, hn] using hk
    simp only [isAccessing, Bool.false_eq_true, if_false, if_true] at hcount
    rw [accessors] at he
    show k = ((s.threads.set t _).countP isAccessing : Int)
    omega
  · rcases mem_set_cases hm with heq | hm
    · cases heq
      exact hc
    · exact h.given m' p hm

theorem Held.finish (h : Held s) {p : Option π} {f : Fetcher π}
    (ht : s.threads[t]? = some (.accessing m p)) (hf : s.fetcher.finishPart m = .ok f)
    (hw : s.fetcher.localAccessCount = some 1 → ∀ x ∈ s.threads, x.isWoken = false) :
    Held { s with fetcher := f, threads := s.threads.set t .idle } := by
  have hmem := mem_of_getElem? ht
  have hcount := countP_set_thread (y := .idle) isAccessing ht
  simp only [isAccessing, Bool.false_eq_true, if_false, if_true] at hcount
  have hgiven : ∀ m' p', .accessing m' p' ∈ s.threads.set t .idle → p'.isSome := by
    intro m' p' hm
    rcases mem_set_cases hm with heq | hm
    · cases heq
    · exact h.given m' p' hm
  rcases finishPart_eq_ok hf with ⟨hn, rfl⟩ | ⟨n, hn, hlt, rfl⟩ | ⟨hn, rfl⟩
  · -- with the entry gone nobody has the partition
    have := ((h.cold hn).2 _ hmem).2
    cases this
  · obtain ⟨hv, hc, he⟩ := h.hot n hn
    refine ⟨fun h0 => (by cases h0), fun k hk => ⟨hv, hc, ?_⟩, hgiven⟩
    have hk : n - 1 = k := Option.some.inj hk
    rw [accessors] at he
    show k = ((s.threads.set t .idle).countP isAccessing : Int)
    omega
  · obtain ⟨-, -, he⟩ := h.hot 1 hn
    refine ⟨fun _ => ⟨rfl, fun x hx => ?_⟩, fun k hk => (by cases hk), hgiven⟩
    have hnone : (s.threads.set t .idle).countP isAccessing = 0 := by
      rw [accessors] at he
      omega
    refine ⟨?_, by simpa using countP_eq_zero.mp hnone x hx⟩
    rcases mem_set_cases hx with rfl | hx
    · rfl
    · exact hw hn x hx

end Changes

theorem localAccessCount_ne_none {s : FetchSystem π} (h : Held s) {m : FetchMeta}
    (hs : s.fetcher.isVersionSatisfied m = true) : s.fetcher.localAccessCount ≠ none := by
  intro hn
  obtain ⟨v, hv, -⟩ := isVersionSatisfied_iff.mp hs
  rw [(h.cold hn).1] at hv
  cases hv

theorem fetchPartRequest_books (s : Fetcher π) (m : FetchMeta) :
    (s.fetchPartRequest m).partitionVersions = s.partitionVersions ∧
      (s.fetchPartRequest m).partitionCache = s.partitionCache ∧
      (s.fetchPartRequest m).localAccessCount = s.localAccessCount := by
  unfold fetchPartRequest
  split
  · exact ⟨rfl, rfl, rfl⟩
  · split
    · exact ⟨rfl, rfl, rfl⟩
    · split <;> exact ⟨rfl, rfl, rfl⟩

theorem held_step {s s' : FetchSystem π} {a : FetchAction π} (h : Held s) (ha : KeepsWoken s a)
    (hstep : step true s a = .ok s') : Held s' := by
  cases step_change hstep with
  | skip => exact h
  | hit t m ht hs => exact h.take ht rfl (localAccessCount_ne_none h hs)
  | miss t m ht => exact h.move ht rfl rfl (fun hw => by cases hw) _
  | push t m ht => exact h.move ht rfl rfl (fun hw => by cases hw) _
  | wake t m ht hs => exact h.move ht rfl rfl (fun _ => localAccessCount_ne_none h hs) _
  | access t m ht =>
    refine h.take ht rfl fun hn => ?_
    have hw := ((h.cold hn).2 _ (mem_of_getElem? ht)).1
    cases hw
  | finishPart t m p f ht hf => exact h.finish ht hf ha
  | request i t m hi =>
    obtain ⟨hv, hc, hn⟩ := fetchPartRequest_books s.fetcher m
    refine ⟨fun h0 => ?_, fun k hk => ?_, h.given⟩
    · rw [hv]
      exact h.cold (hn ▸ h0)
    · rw [hv, hc]
      exact h.hot k (hn ▸ hk)
  | replyLocal i m v p hi hl hn =>
    have hcold := (h.cold hn).2
    refine ⟨fun h0 => (by cases h0), fun k hk => ⟨rfl, rfl, ?_⟩, h.given⟩
    have hk : 0 = k := Option.some.inj hk
    have hzero : s.accessors = 0 :=
      countP_eq_zero.mpr fun x hx => by simp [(hcold x hx).2]
    rw [← hk]
    exact congrArg Nat.cast hzero.symm
  | replyRemote i m v p hi hl => cases hl

/-- **A returned partition is held.**  In every run in which no thread is between its wait and
its access when the count drops to zero: `FetchPart` has returned no null pointer, the count is
that of the threads that have the partition, and a step that sends `kFinishFetch` leaves none. -/
theorem fetchPart_held (n : Nat) (s : FetchSystem π)
    (hs : Reach (step true) KeepsWoken (init π n) s) :
    (∀ m p, .accessing m p ∈ s.threads → p.isSome) ∧
    (0 < s.accessors → s.fetcher.localAccessCount = some (s.accessors : Int)) ∧
    (∀ a s', KeepsWoken s a → step true s a = .ok s' →
      s'.fetcher.finished ≠ s.fetcher.finished → s'.accessors = 0) := by
  have hheld : ∀ s, Reach (step true) KeepsWoken (init π n) s → Held s := fun s hs =>
    hs.induct (held_init n) fun _ _ _ _ h ha hstep => held_step h ha hstep
  have h := hheld s hs
  refine ⟨h.given, fun hpos => ?_, fun a s' ha hstep hne => ?_⟩
  · cases hn : s.fetcher.localAccessCount with
    | none =>
      obtain ⟨x, hx, hacc⟩ := countP_pos_iff.mp hpos
      rw [((h.cold hn).2 x hx).2] at hacc
      cases hacc
    | some k => rw [(h.hot k hn).2.2]
  · have h' := hheld s' (.tail hs ha hstep)
    cases step_change hstep with
    | finishPart t m p f ht hf =>
      rcases finishPart_eq_ok hf with ⟨-, rfl⟩ | ⟨k, -, -, rfl⟩ | ⟨-, rfl⟩
      · exact absurd rfl hne
      · exact absurd rfl hne
      · exact countP_eq_zero.mpr fun x hx => by simp [((h'.cold rfl).2 x hx).2]
    | request i t m hi =>
      refine absurd ?_ hne
      show (s.fetcher.fetchPartRequest m).finished = _
      unfold fetchPartRequest
      split
      · rfl
      · split
        · rfl
        · split <;> rfl
    | _ => exact absurd rfl hne

/-- A map of version 0 asks for partition 0. -/
def askZero : FetchMeta := ⟨0, -1, 1, 0, 0, true⟩

/-- Two threads ask, and the controller's grant has arrived. -/
def twoAsk : List (FetchAction Unit) :=
  [.fetchPart 0 askZero, .push 0, .fetchPart 1 askZero, .push 1, .fetchPartRequest 0,
    .fetchPartRequest 0, .reply 0 0 (), .wake 0, .access 0]

/-- The second takes its reference, then both finish. -/
def bothAccess : List (FetchAction Unit) := twoAsk ++ [.wake 1, .access 1, .finishPart 0]

theorem fetchPart_held_bothAccess :
    ∃ s, run (step true) (init Unit 2) bothAccess = .ok s ∧ s.accessors = 1 ∧
      s.fetcher.localAccessCount = some 1 :=
  ⟨_, rfl, by decide,
    (fetchPart_held 2 _ (reach_of_run_ok bothAccess (by decide) rfl)).2.1 (by decide)⟩

/-- The first finishes while the second is awake but has no reference: the entry goes, and the
second is handed the null pointer. -/
theorem fetchPart_null :
    ∃ s, Reach (step true) (fun _ _ => True) (init Unit 2) s ∧
      s.threads = [.idle, .accessing askZero none] ∧ s.fetcher.localAccessCount = none :=
  ⟨_, reach_of_run (twoAsk ++ [.wake 1, .finishPart 0, .access 1]) rfl, rfl, rfl⟩

end FetchSystem

end Tangram
