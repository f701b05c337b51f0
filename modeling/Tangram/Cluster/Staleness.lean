import Tangram.Cluster.Cluster
import Tangram.Cluster.Isolation

/-!
# Bounded staleness of fetched partitions

A map of version `v` asks for version `max (v - staleness) 0` of a partition of
the update collection.  The map was admitted by the `min_version_` of its node,
which the manager announced, which bounds the update version of every partition
from below:

    max (v - staleness) 0 ≤ versions ≤ update_versions_[p]

so no request that is on its way asks for more than its controller has
(`asked_reachable`), and every reply answers its request (`fetch_fresh`).
-/

namespace Tangram

open StepRun List Function

/-! ## The fetcher asks for versions it was asked for -/

/-- The meta of the `FetchPart` that a thread is in. -/
def FetchThread.meta? {π : Type} : FetchThread π → Option FetchMeta
  | .idle => none
  | .requested m | .waiting m | .woken m | .accessing m _ => some m

namespace Fetcher

variable {π : Type} {f f' : Fetcher π} {m : FetchMeta} {v : Int}

/-- What `TryFetchNextVersion` sends. -/
theorem mem_nextVersion {q : List Int} {m' : FetchMeta}
    (h : m' ∈ (above q v).head?.toList.map fun w => { m with version := w }) :
    m'.version ∈ q ∧ v < m'.version := by
  obtain ⟨w, hw, rfl⟩ := mem_map.mp h
  exact mem_above.mp (mem_of_head? (Option.mem_toList.mp hw))

theorem tryFetchNextVersion_above (h : tryFetchNextVersion f m v = .ok f') {m' : FetchMeta}
    (hm : m' ∈ f'.toController) : m' ∈ f.toController ∨ v < m'.version := by
  rw [tryFetchNextVersion_eq_ok h] at hm
  rcases mem_append.mp hm with hm | hm
  · exact .inl hm
  · exact .inr (mem_nextVersion hm).2

theorem finishPart_above (h : finishPart f m = .ok f') (hv : f.partitionVersions = some v)
    {m' : FetchMeta} (hm : m' ∈ f'.toController) : m' ∈ f.toController ∨ v < m'.version := by
  rcases finishPart_eq_ok h with ⟨-, rfl⟩ | ⟨n, -, -, rfl⟩ | ⟨-, rfl⟩
  · exact .inl hm
  · exact .inl hm
  · rcases mem_append.mp hm with hm | hm
    · exact .inl hm
    · rw [hv] at hm
      exact .inr (mem_nextVersion hm).2

end Fetcher

namespace FetchSystem

open Fetcher

variable {π : Type}

/-- Every version that is asked for somewhere in the fetcher satisfies `ok`. -/
structure Asks (ok : Int → Prop) (s : FetchSystem π) : Prop where
  threads : ∀ x ∈ s.threads, ∀ m, x.meta? = some m → ok m.version
  queued : ∀ e ∈ s.workQueue, ok e.2.version
  requesting : ∀ v ∈ s.fetcher.requestingVersions, ok v
  sent : ∀ m ∈ s.fetcher.toController, ok m.version

variable {ok : Int → Prop} {s s' : FetchSystem π}

theorem asks_init (n : Nat) : Asks ok (init π n) where
  threads x hx m hm := by
    rw [eq_of_mem_replicate hx] at hm
    cases hm
  queued _ h := by cases h
  requesting _ h := by cases h
  sent _ h := by cases h

theorem Asks.mono (h : Asks ok s) {ok' : Int → Prop} (hok : ∀ v, ok v → ok' v) : Asks ok' s where
  threads x hx m hm := hok _ (h.threads x hx m hm)
  queued e he := hok _ (h.queued e he)
  requesting v hv := hok _ (h.requesting v hv)
  sent m hm := hok _ (h.sent m hm)

/-- A thread moves on with a version that is fine. -/
theorem Asks.thread (h : Asks ok s) {t : Nat} {y : FetchThread π}
    (hy : ∀ m, y.meta? = some m → ok m.version) :
    ∀ x ∈ s.threads.set t y, ∀ m, x.meta? = some m → ok m.version := by
  intro x hx
  rcases mem_set_cases hx with rfl | hx
  · exact hy
  · exact h.threads x hx

/-- The thread `t` keeps its meta. -/
theorem Asks.keep (h : Asks ok s) {t : Nat} {x y : FetchThread π} (ht : s.threads[t]? = some x)
    (hxy : y.meta? = x.meta?) : ∀ x ∈ s.threads.set t y, ∀ m, x.meta? = some m → ok m.version :=
  h.thread fun m hm => h.threads x (mem_of_getElem? ht) m (hxy ▸ hm)

theorem Asks.request (h : Asks ok s) {m : FetchMeta} (hm : ok m.version) :
    (∀ v ∈ (s.fetcher.fetchPartRequest m).requestingVersions, ok v) ∧
      ∀ m' ∈ (s.fetcher.fetchPartRequest m).toController, ok m'.version := by
  unfold fetchPartRequest
  split
  · exact ⟨h.requesting, h.sent⟩
  · split
    · refine ⟨fun v hv => ?_, fun m' hm' => ?_⟩
      · rw [mem_singleton.mp hv]
        exact hm
      · rcases mem_append.mp hm' with hm' | hm'
        · exact h.sent m' hm'
        · rw [mem_singleton.mp hm']
          exact hm
    · split
      · refine ⟨fun v hv => ?_, h.sent⟩
        rcases mem_append.mp hv with hv | hv
        · exact h.requesting v hv
        · rw [mem_singleton.mp hv]
          exact hm
      · exact ⟨h.requesting, h.sent⟩

/-- What is still requested after version `v`, and the request that is sent for it. -/
theorem Asks.next (h : Asks ok s) (m : FetchMeta) (v : Int) :
    (∀ w ∈ above s.fetcher.requestingVersions v, ok w) ∧
      ∀ m' ∈ s.fetcher.toController ++ (above s.fetcher.requestingVersions v).head?.toList.map
        fun w => { m with version := w }, ok m'.version := by
  refine ⟨fun w hw => h.requesting w (mem_above.mp hw).1, fun m' hm' => ?_⟩
  rcases mem_append.mp hm' with hm' | hm'
  · exact h.sent m' hm'
  · exact h.requesting _ (mem_nextVersion hm').1

theorem Asks.finish (h : Asks ok s) {m : FetchMeta} {f : Fetcher π}
    (hf : s.fetcher.finishPart m = .ok f) : (∀ v ∈ f.requestingVersions, ok v) ∧
      ∀ m' ∈ f.toController, ok m'.version := by
  rcases finishPart_eq_ok hf with ⟨-, rfl⟩ | ⟨n, -, -, rfl⟩ | ⟨-, rfl⟩
  · exact ⟨h.requesting, h.sent⟩
  · exact ⟨h.requesting, h.sent⟩
  · exact h.next m _

/-- One section, other than a reply, of a fetcher that is asked for `ok` versions only. -/
theorem Asks.step (h : Asks ok s) {a : FetchAction π} (hstep : step false s a = .ok s')
    (ha : ∀ t m, a = .fetchPart t m → ok m.version) (hr : ∀ i v p, a ≠ .reply i v p) :
    Asks ok s' := by
  cases step_change hstep with
  | skip => exact h
  | hit t m ht hs | miss t m ht =>
    refine { h with threads := h.thread fun m' hm' => ?_ }
    cases hm'
    exact ha t m rfl
  | push t m ht =>
    refine { h with threads := h.keep ht rfl, queued := fun e he => ?_ }
    rcases mem_append.mp he with he | he
    · exact h.queued e he
    · rw [mem_singleton.mp he]
      exact h.threads _ (mem_of_getElem? ht) m rfl
  | wake t m ht hs => exact { h with threads := h.keep ht rfl }
  | access t m ht => exact { h with threads := h.keep ht rfl }
  | finishPart t m p f ht hf =>
    obtain ⟨hreq, hsent⟩ := h.finish hf
    exact ⟨h.thread fun m' hm' => (by cases hm'), h.queued, hreq, hsent⟩
  | request i t m hi =>
    obtain ⟨hreq, hsent⟩ := h.request (h.queued _ (mem_of_getElem? hi))
    exact ⟨h.threads, fun e he => h.queued e (mem_of_mem_eraseIdx he), hreq, hsent⟩
  | replyLocal i m v p => exact absurd rfl (hr i v p)
  | replyRemote i m v p => exact absurd rfl (hr i v p)

end FetchSystem

/-! ## The controller has what it is asked for -/

namespace PlanController

variable {β : Type} {c : Spec} {ok : Int → Prop} {s s' : PlanController β} {e : VersionedJoinMeta β}

/-- The local update partitions have every version `ok` allows; so nothing else being asked,
every reply is at least what was asked for. -/
structure Fetching (c : Spec) (ok : Int → Prop) (s : PlanController β) : Prop where
  fresh : ∀ v, ok v → ∀ p ∈ c.partitions c.updateCollectionId, v ≤ s.updateVersions.val p
  waiting : ∀ p f, .fetch f ∈ s.waitingUpdates p → ok f.version
  executing : ∀ f v, .fetch f v ∈ s.fetchExecutor → ok f.version ∧ f.version ≤ v
  replied : ∀ r ∈ s.toFetcher, ok r.requested ∧ r.requested ≤ r.version ∧
    (r.flag = .kFetchObjsReply ↔ r.requested = -1)

/-- More may be asked for once the partitions have it. -/
theorem Fetching.mono (h : Fetching c ok s) {ok' : Int → Prop} (hok : ∀ v, ok v → ok' v)
    (hfresh : ∀ v, ok' v → ∀ p ∈ c.partitions c.updateCollectionId, v ≤ s.updateVersions.val p) :
    Fetching c ok' s where
  fresh := hfresh
  waiting p f hf := hok _ (h.waiting p f hf)
  executing f v hf := ⟨hok _ (h.executing f v hf).1, (h.executing f v hf).2⟩
  replied r hr := ⟨hok _ (h.replied r hr).1, (h.replied r hr).2⟩

theorem Fetching.pushWaiting (h : Fetching c ok s) {p : Int} {e : VersionedJoinMeta β}
    (he : ∀ f, e = .fetch f → ok f.version) : Fetching c ok (s.pushWaiting p e) := by
  refine { h with waiting := fun p' f hf => ?_ }
  by_cases hp : p' = p
  · subst hp
    simp only [PlanController.pushWaiting, setWaiting, update_self] at hf
    rcases mem_append.mp hf with hf | hf
    · exact h.waiting p' f hf
    · exact he f (mem_singleton.mp hf).symm
  · simp only [PlanController.pushWaiting, setWaiting, update_of_ne hp] at hf
    exact h.waiting p' f hf

theorem Fetching.pop (h : Fetching c ok s) {p : Int} {rest : List (VersionedJoinMeta β)}
    (hq : s.waitingUpdates p = e :: rest) : Fetching c ok (s.setWaiting p rest) := by
  refine { h with waiting := fun p' f hf => ?_ }
  by_cases hp : p' = p
  · subst hp
    simp only [setWaiting, update_self] at hf
    exact h.waiting p' f (hq ▸ mem_cons_of_mem _ hf)
  · simp only [setWaiting, update_of_ne hp] at hf
    exact h.waiting p' f hf

theorem Fetching.releasePending (h : Fetching c ok s) (p v : Int) :
    Fetching c ok (releasePending s p v) := by
  refine { h with waiting := fun p' f hf => ?_ }
  by_cases hp : p' = p
  · subst hp
    simp only [PlanController.releasePending, update_self] at hf
    rcases mem_append.mp hf with hf | hf
    · exact h.waiting p' f hf
    · obtain ⟨m, -, hm⟩ := mem_map.mp hf
      cases hm
  · simp only [PlanController.releasePending, update_of_ne hp] at hf
    exact h.waiting p' f hf

theorem Fetching.pushTask (h : Fetching c ok s) {t : FetchTask β} (ht : ∀ f v, t ≠ .fetch f v) :
    ∀ f v, .fetch f v ∈ s.fetchExecutor ++ [t] → ok f.version ∧ f.version ≤ v := by
  intro f v hf
  rcases mem_append.mp hf with hf | hf
  · exact h.executing f v hf
  · exact absurd (mem_singleton.mp hf).symm (ht f v)

theorem Fetching.eraseTask (h : Fetching c ok s) (i : Nat) :
    ∀ f v, .fetch f v ∈ s.fetchExecutor.eraseIdx i → ok f.version ∧ f.version ≤ v :=
  fun f v hf => h.executing f v (mem_of_mem_eraseIdx hf)

theorem Fetching.completeVersion (h : Fetching c ok s) (p v : Int) :
    Fetching c ok (completeVersion s p v) :=
  { h with fresh := fun w hw q hq => (h.fresh w hw q hq).trans (le_completeVersion s p v q) }

theorem Fetching.runFetchRequest (h : Fetching c ok s)
    (hc : c.fetchCollectionId = c.updateCollectionId) {f : FetchReq} (hf : ok f.version)
    (hp : f.partId ∈ c.partitions c.updateCollectionId) :
    Fetching c ok (runFetchRequest c s f) := by
  have hle : f.version ≤ fetchVersion c s f.partId := by
    rw [fetchVersion, if_pos hc]
    exact h.fresh _ hf _ hp
  refine { h with executing := fun g v hg => ?_, replied := fun r hr => ?_ }
  · simp only [PlanController.runFetchRequest] at hg
    split at hg
    · exact h.executing g v hg
    · rcases mem_append.mp hg with hg | hg
      · exact h.executing g v hg
      · cases mem_singleton.mp hg
        exact ⟨hf, hle⟩
  · simp only [PlanController.runFetchRequest] at hr
    split at hr
    · next hgrant =>
      rcases mem_append.mp hr with hr | hr
      · exact h.replied r hr
      · rw [mem_singleton.mp hr]
        exact ⟨hf, hle, by simpa using hgrant.2.1⟩
    · exact h.replied r hr

theorem fetching_head (hc : c.fetchCollectionId = c.updateCollectionId) {a : Action β}
    (h : Fetching c ok s) (ha : ∀ f, a = .kFetchRequest f → ok f.version) (hh : Head c s a s') :
    Fetching c ok s' := by
  cases hh with
  | waitJoin m hk hj hv =>
    have h₁ : Fetching c ok { s with received := s.received ++ [m] } := { h with }
    exact h₁.pushWaiting fun f hf => by cases hf
  | runFetch f hp hf hr => exact h.runFetchRequest hc (ha f rfl) (hc ▸ hp)
  | waitFetch f hk hf hu hr =>
    refine h.pushWaiting fun g hg => ?_
    cases hg
    exact ha f rfl
  | execJoin i m hi => exact { h with executing := h.eraseTask i }
  | execCheckpoint i p iter hi => exact { h with executing := h.eraseTask i }
  | execFetch i f v hi =>
    obtain ⟨hok, hle⟩ := h.executing f v (mem_of_getElem? hi)
    refine { h with executing := h.eraseTask i, replied := fun r hr => ?_ }
    rcases mem_append.mp hr with hr | hr
    · exact h.replied r hr
    · rw [mem_singleton.mp hr]
      refine ⟨hok, hle, ?_⟩
      show (if f.version = -1 then FetcherFlag.kFetchObjsReply else .kFetchPartReplyRemote) = _ ↔ _
      split <;> simp [*, fetchReply]
  | finishMapJoin i p b hi hk hu =>
    have h₁ : Fetching c ok (countMap c (mapDone (takeMsg s i) p) p) := { h with }
    exact h₁.releasePending p _
  | complete i p v ups hi hn =>
    have h₁ : Fetching c ok (PlanController.trackJoin (takeMsg s i) p v ups) := { h with }
    exact { h₁.completeVersion p v with }
  | completeCheckpoint i p v ups hi hn =>
    have h₁ : Fetching c ok (PlanController.trackJoin (takeMsg s i) p v ups) := { h with }
    exact { h₁.completeVersion p v with executing := h.pushTask fun f w hf => by cases hf }
  | _ => exact { h with }

theorem fetching_tail (hc : c.fetchCollectionId = c.updateCollectionId) (hl : Layout c s)
    (h : Fetching c ok s) (ht : Tail c s s') : Fetching c ok s' := by
  cases ht with
  | launch p hr hp => exact { h with }
  | popDuplicate p m rest hq hb hj => exact { h.pop hq with }
  | popFetch p f rest hq hb =>
    have hmem : .fetch f ∈ s.waitingUpdates p := hq ▸ mem_cons_self
    obtain ⟨hpart, hlocal⟩ := hl.waiting p _ hmem
    have hpart : f.partId = p := hpart
    exact (h.pop hq).runFetchRequest hc (h.waiting p f hmem) (hpart ▸ hlocal)
  | popJoin p m rest hq hb hj hr =>
    exact { h.pop hq with executing := h.pushTask fun f v hf => by cases hf }

theorem fetching_step (hc : c.fetchCollectionId = c.updateCollectionId) {a : Action β}
    (hl : Layout c s) (h : Fetching c ok s) (ha : ∀ f, a = .kFetchRequest f → ok f.version)
    (hstep : step c s a = .ok s') : Fetching c ok s' := by
  refine (step_induct (P := fun t => Layout c t ∧ Fetching c ok t) hstep
    (fun s₁ hh => ?_) fun t u ht htail => ?_).2
  · exact ⟨layout_stable.head _ _ _ hl hh, fetching_head hc h ha hh⟩
  · exact ⟨layout_stable.tail _ _ ht.1 htail, fetching_tail hc ht.1 ht.2 htail⟩

end PlanController

/-! ## The cluster -/

namespace ControlPlane

open PlanController

variable {K M O B : Type} {job : MapJoin K M O B} {s s' : ControlPlane K M B}

/-- A version that a map asks for: the map is at most `staleness` ahead of the plan. -/
def Asked (job : MapJoin K M O B) (s : ControlPlane K M B) (v : Int) : Prop :=
  ∃ w, w ≤ s.sched.versions + job.staleness ∧ v = max (w - job.staleness) 0

/-- A version that a request carries; `-1` is that of a request for objects. -/
def AskedOrObjs (job : MapJoin K M O B) (s : ControlPlane K M B) (v : Int) : Prop :=
  v = -1 ∨ Asked job s v

theorem Synced.asked_le (h : Synced job s) {v : Int} (hv : AskedOrObjs job s v) :
    v ≤ s.sched.versions := by
  have h0 := h.inv.nonneg
  rcases hv with rfl | ⟨w, hw, rfl⟩
  · omega
  · omega

theorem Synced.fresh (h : Synced job s) {n v : Int} (hv : AskedOrObjs job s v) {p : Int}
    (hp : p ∈ (job.spec n).partitions (job.spec n).updateCollectionId) :
    v ≤ (s.controller n).pc.updateVersions.val p := by
  obtain ⟨hpart, rfl⟩ := MapJoin.mem_spec_update.mp hp
  exact (h.asked_le hv).trans (h.versions_le hpart)

/-- A running map asks for such a version. -/
theorem Synced.asked_of_task (h : Synced job s) (hF : Flow job s) {n : Int} {t : MapTask}
    (ht : t ∈ (s.controller n).pc.mapExecutor) : Asked job s (max (t.version - job.staleness) 0) := by
  have h₁ : t.version ≤ (s.controller n).pc.minVersion + job.staleness :=
    (hF.maps n).taskBound t ht
  have h₂ := h.min n
  exact ⟨t.version, by omega, rfl⟩

section Moves

variable [LinearOrder K] {e : PlaneEvent}

theorem asked_move (hF : Flow job s) (h : Synced job s) (hm : Move job s e s') (v : Int)
    (hv : Asked job s v) : Asked job s' v := by
  obtain ⟨w, hw, rfl⟩ := hv
  have := versions_move hF h hm
  exact ⟨w, by omega, rfl⟩

theorem fetching_move (hc : job.fetchCollectionId = job.updateCollectionId) (hF : Flow job s)
    (h : Synced job s) (hm : Move job s e s')
    (he : ∀ f, e = .kFetchRequest f → AskedOrObjs job s f.version)
    (hall : ∀ n, Fetching (job.spec n) (AskedOrObjs job s) (s.controller n).pc) (n : Int) :
    Fetching (job.spec n) (AskedOrObjs job s') (s'.controller n).pc := by
  have hstep : Fetching (job.spec n) (AskedOrObjs job s) (s'.controller n).pc := by
    rcases move_pc hm n with hpc | ⟨a, hstep, -, hreq, -⟩
    · rw [hpc]
      exact hall n
    · exact fetching_step hc (hF.sound n).layout (hall n) (fun f hf => he f (hreq f hf)) hstep
  refine hstep.mono (fun v hv => hv.imp_right (asked_move hF h hm v)) fun v hv p hp => ?_
  exact (synced_move hF h hm).fresh hv hp

end Moves

end ControlPlane

namespace Cluster

open ControlPlane

variable {K M O B : Type} {job : MapJoin K M O B} {s s' : Cluster K M O B}

/-- Nothing else is asked for anywhere. -/
structure Asking (job : MapJoin K M O B) (s : Cluster K M O B) : Prop where
  fetching : ∀ n,
    PlanController.Fetching (job.spec n) (AskedOrObjs job s.toControlPlane) (s.controller n).pc
  asks : ∀ n p, (s.fetchers n p).Asks (Asked job s.toControlPlane)

theorem setFetcher_fetchers (n p : Int) (f : FetchSystem Unit) (n' p' : Int) :
    (s.setFetcher n p f).fetchers n' p' = f ∨
      (s.setFetcher n p f).fetchers n' p' = s.fetchers n' p' := by
  by_cases hn : n' = n
  · subst hn
    by_cases hp : p' = p
    · subst hp
      simp [setFetcher]
    · simp [setFetcher, update_of_ne hp]
  · simp [setFetcher, update_of_ne hn]

theorem Asking.setFetcher (h : Asking job s) (n p : Int) {f : FetchSystem Unit}
    (hf : f.Asks (Asked job s.toControlPlane)) : Asking job (s.setFetcher n p f) := by
  refine ⟨h.fetching, fun n' p' => ?_⟩
  rcases setFetcher_fetchers (s := s) n p f n' p' with heq | heq
  · rw [heq]
    exact hf
  · rw [heq]
    exact h.asks n' p'

theorem handleReply_asks {ok : Int → Prop} {x : FetchSystem Unit} (h : x.Asks ok) {r : FetchReply}
    {localMode : Bool} {f : Fetcher Unit} (hf : handleReply job x.fetcher r localMode = .ok f) :
    FetchSystem.Asks ok { x with fetcher := f } := by
  unfold handleReply at hf
  split at hf
  · cases hf
    exact h
  · obtain ⟨_, -, hf⟩ := bind_eq_ok.mp hf
    cases hf
    exact { h with }
  · obtain rfl := Fetcher.tryFetchNextVersion_eq_ok hf
    obtain ⟨hreq, hsent⟩ := h.next (replyMeta job r localMode) r.version
    exact ⟨h.threads, h.queued, hreq, hsent⟩

/-- The control plane moves, and the fetchers ask for nothing new. -/
theorem Asking.plane [LinearOrder K] (hc : job.fetchCollectionId = job.updateCollectionId)
    (hF : Flow job s.toControlPlane) (hsync : Synced job s.toControlPlane) (h : Asking job s)
    {e : PlaneEvent} (hm : ControlPlane.Move job s.toControlPlane e s'.toControlPlane)
    (he : ∀ f, e = .kFetchRequest f → AskedOrObjs job s.toControlPlane f.version)
    (hf : ∀ n p, (s'.fetchers n p).Asks (Asked job s.toControlPlane)) : Asking job s' :=
  ⟨fetching_move hc hF hsync hm he h.fetching,
    fun n p => (hf n p).mono (asked_move hF hsync hm)⟩

theorem asking_move [LinearOrder K] (hc : job.fetchCollectionId = job.updateCollectionId)
    (hF : Flow job s.toControlPlane) (hsync : Synced job s.toControlPlane) (h : Asking job s)
    (hm : Move job s s') : Asking job s' := by
  cases hm with
  | stay => exact h
  | plane n e he hx plane hp =>
    refine h.plane hc hF hsync (ControlPlane.step_move hp) ?_ h.asks
    rintro f rfl
    cases he
  | execFetch n hn i x hx =>
    exact h.plane hc hF hsync (ControlPlane.step_move ((step_execFetch hn).mpr ⟨x, hx, rfl⟩))
      (fun f hf => by cases hf) h.asks
  | getPartition n p t i task hi f hf =>
    refine h.setFetcher n p ((h.asks n p).step hf ?_ (by simp))
    intro t' m hm
    cases hm
    exact hsync.asked_of_task hF (mem_of_getElem? hi)
  | fetcher n p a ha f hf =>
    refine h.setFetcher n p ((h.asks n p).step hf ?_ ?_)
    · rintro t m rfl
      cases ha
    · rintro i v π rfl
      cases ha
  | requestPart n p i m hi plane hp =>
    have hsent : Asked job s.toControlPlane m.version :=
      (h.asks n p).sent m (mem_of_getElem? hi)
    have htake : (takeRequest (s.fetchers n p) i).Asks (Asked job s.toControlPlane) :=
      ⟨(h.asks n p).threads, (h.asks n p).queued, (h.asks n p).requesting,
        fun m' hm' => (h.asks n p).sent m' (mem_of_mem_eraseIdx hm')⟩
    refine h.plane hc hF hsync (ControlPlane.step_move hp) ?_ (h.setFetcher n p htake).asks
    intro f hf
    cases hf
    exact .inr hsent
  | requestObjs n p u plane hp =>
    refine h.plane hc hF hsync (ControlPlane.step_move hp) ?_ h.asks
    intro f hf
    cases hf
    exact .inl rfl
  | reply n p d j localMode r hj f hf =>
    have h₁ := h.setFetcher n p (handleReply_asks (h.asks n p) hf)
    exact ⟨h₁.fetching, h₁.asks⟩
  | finishFetch n p i released plane hp =>
    exact h.plane hc hF hsync (ControlPlane.step_move hp) (fun f hf => by cases hf) h.asks

theorem asking_reachable [LinearOrder K] (hc : job.fetchCollectionId = job.updateCollectionId)
    (hs : Reachable job s) : Asking job s := by
  refine (hs.induct (P := fun s => ControlPlane.Reachable job s.toControlPlane ∧ Asking job s)
    ⟨.refl, ?_⟩ fun s s' h hm => ?_).2
  · refine ⟨fun n => ⟨fun v hv p hp => ?_, ?_, ?_, ?_⟩, fun n p => FetchSystem.asks_init _⟩
    · exact synced_init.fresh hv hp
    · intro p f hf
      cases hf
    · intro f v hf
      cases hf
    · intro r hr
      cases hr
  · obtain ⟨hF, hsync⟩ := synced_reachable h.1
    refine ⟨?_, asking_move hc hF hsync h.2 hm⟩
    rcases move_plane hm with heq | ⟨a, hstep⟩
    · rw [heq]
      exact h.1
    · exact .tail h.1 trivial hstep

/-- What a processed reply does to the fetcher. -/
theorem handleReply_satisfied {r : FetchReply} {localMode : Bool} {f f' : Fetcher Unit}
    (hpart : r.flag ≠ .kFetchObjsReply) (hf : handleReply job f r localMode = .ok f') :
    f'.partitionVersions = some r.version ∧
      ∀ m ∈ f'.toController, m ∈ f.toController ∨ r.version < m.version := by
  unfold handleReply at hf
  split at hf
  · next hflag => exact absurd hflag hpart
  · obtain ⟨_, -, hf⟩ := bind_eq_ok.mp hf
    cases hf
    exact ⟨rfl, fun m hm => .inl hm⟩
  · have hf : Fetcher.tryFetchNextVersion { f with
        partitionVersions := some r.version
        partitionCache := some () } (replyMeta job r localMode) r.version = .ok f' := hf
    refine ⟨?_, fun m hm => Fetcher.tryFetchNextVersion_above hf hm⟩
    rw [Fetcher.tryFetchNextVersion_eq_ok hf]

/-- **Bounded staleness.**  Let the fetched collection be the update collection.  In every state
of every run, a controller that has replied to the fetch of a partition was asked for
`max (v - staleness) 0` by a map of some version `v`, and the version it replied with is at least
that.  So when a fetcher processes the reply, the fetch is satisfied, and neither that nor the
`FinishPart` that gives the partition back sends a request for the version again. -/
theorem fetch_fresh [LinearOrder K] (job : MapJoin K M O B)
    (hc : job.fetchCollectionId = job.updateCollectionId) (s : Cluster K M O B)
    (hs : Reachable job s) (n : Int) (r : FetchReply) (hr : r ∈ (s.controller n).pc.toFetcher)
    (hpart : r.flag ≠ .kFetchObjsReply) :
    (∃ v, v ≤ s.sched.versions + job.staleness ∧ r.requested = max (v - job.staleness) 0) ∧
    r.requested ≤ r.version ∧
    (∀ f f' localMode, handleReply job f r localMode = .ok f' →
      (∀ m, m.version = r.requested → f'.isVersionSatisfied m = true) ∧
      ∀ m ∈ f'.toController, m ∈ f.toController ∨ r.requested < m.version) ∧
    (∀ (f f' : Fetcher Unit) m, f.partitionVersions = some r.version → f.finishPart m = .ok f' →
      ∀ m' ∈ f'.toController, m' ∈ f.toController ∨ r.requested < m'.version) := by
  obtain ⟨hasked, hle, hflag⟩ := ((asking_reachable hc hs).fetching n).replied r hr
  refine ⟨?_, hle, fun f f' localMode hf => ?_, fun f f' m hv hf m' hm' => ?_⟩
  · rcases hasked with hobjs | hasked
    · exact absurd (hflag.mpr hobjs) hpart
    · exact hasked
  · obtain ⟨hver, habove⟩ := handleReply_satisfied hpart hf
    refine ⟨fun m hm => Fetcher.isVersionSatisfied_iff.mpr ⟨_, hver, hm ▸ hle⟩, fun m hm => ?_⟩
    exact (habove m hm).imp_right fun h => by omega
  · exact (Fetcher.finishPart_above hf hv hm').imp_right fun h => by omega

/-- After one round the map of version 1 on node 1 fetches partition 1 from node 2. -/
def fetchAfterRound : List (Int × ClusterEvent) :=
  oneRound.map (fun a => (a.1, .plane a.2)) ++
    [(1, .plane (.beginMap 0)), (1, .getPartition 1 0 0), (1, .fetcher 1 (.push 0)),
      (1, .fetcher 1 (.fetchPartRequest 0)), (1, .requestPart 1 0), (2, .plane (.execFetch 0))]

theorem fetch_fresh_fetchAfterRound :
    ∃ s, run (step (twoNodes 0 2 0 (-1))) (init (twoNodes 0 2 0 (-1))) fetchAfterRound = .ok s ∧
      (s.controller 2).pc.toFetcher = [⟨.kFetchPartReplyRemote, 10, -1, 0, 1, 1, 1⟩] ∧
      ∃ f, handleReply (twoNodes 0 2 0 (-1)) (s.fetchers 1 1).fetcher
          ⟨.kFetchPartReplyRemote, 10, -1, 0, 1, 1, 1⟩ false = .ok f ∧
        f.isVersionSatisfied (fetchMeta (twoNodes 0 2 0 (-1)) 1 1) = true := by
  have hrun : ∃ s,
      run (step (twoNodes 0 2 0 (-1))) (init (twoNodes 0 2 0 (-1))) fetchAfterRound = .ok s ∧
      (s.controller 2).pc.toFetcher = [⟨.kFetchPartReplyRemote, 10, -1, 0, 1, 1, 1⟩] ∧
      ∃ f, handleReply (twoNodes 0 2 0 (-1)) (s.fetchers 1 1).fetcher
          ⟨.kFetchPartReplyRemote, 10, -1, 0, 1, 1, 1⟩ false = .ok f :=
    ⟨_, rfl, by decide, _, rfl⟩
  obtain ⟨s, hs, hr, f, hf⟩ := hrun
  have h := fetch_fresh (twoNodes 0 2 0 (-1)) rfl s (reach_of_run fetchAfterRound hs) 2
    ⟨.kFetchPartReplyRemote, 10, -1, 0, 1, 1, 1⟩ (by rw [hr]; exact mem_cons_self) (by decide)
  exact ⟨s, hs, hr, f, hf, (h.2.2.1 _ f false hf).1 _ rfl⟩

end Cluster

end Tangram
