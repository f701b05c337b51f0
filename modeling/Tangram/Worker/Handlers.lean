import Tangram.Worker.Sited

/-!
# What the handlers of a migration do

Each handler by cases, in the order of its `CHECK`s, and that it keeps the site in order
(`Sited`).  What a partition takes along is what its queues held, apart from where the
streams of local messages are (`VersionedJoinMeta.bare`).
-/

namespace Tangram

open StepRun Relation List Function Table

variable {K M O B : Type}

/-! ## Messages in transit -/

/-- A message without its payload. -/
def VersionedJoinMeta.bare : VersionedJoinMeta (List B) → VersionedJoinMeta Unit
  | .join m => .join ⟨m.partId, m.version, m.upstream, false, ()⟩
  | .fetch f => .fetch { f with localMode := false }

theorem VersionedJoinMeta.partId_bare (e : VersionedJoinMeta (List B)) :
    e.bare.partId = e.partId := by
  cases e <;> rfl

/-- The books are about partition `p`. -/
structure MigrateData.About (p : Int) (data : MigrateData B) : Prop where
  waiting : ∀ e ∈ data.waitingUpdates, e.partId = p
  pending : ∀ q ∈ data.pendingUpdates, ∀ e ∈ q.2, e.partId = p

/-- The partition a message is about. -/
def Wire.partId : Wire K O B → Int
  | .join m => m.partId
  | .kStartMigrate info _ => info.partitionId
  | .kFlushAll info _ => info.partitionId
  | .kDest info _ _ => info.partitionId

/-- A message of a migration says what it is, and carries the books of its partition. -/
def Wire.Proper : Wire K O B → Prop
  | .join _ => True
  | .kStartMigrate _ _ => True
  | .kFlushAll info _ => info.flag = .kFlushAll
  | .kDest info data _ => info.flag = .kDest ∧ data.About info.partitionId

/-- The messages that a handler sends. -/
def Handled.wires (r : Handled K M O B) : List (Wire K O B) :=
  r.sent.map Prod.snd ++ (r.pushed ++ r.delayed)

namespace Site

open PlanController

variable {job : MapJoin K M O B} {n p : Int} {x y : Site K M O B}
  {store store' : Int × List Int × Int → Option (List (K × M))} {r : Handled K M O B}
  {qs : List (Int × List (VersionedJoinMeta (List B)))} {data : MigrateData B}
  {e : VersionedJoinMeta (List B)} {info : MigrateMeta}
  {pending : Multimap (Int × Int) (VersionedJoinMeta (List B))}
  {es es' : List (VersionedJoinMeta (List B))}

/-! ## Streams of local messages -/

theorem serialize_bare {e e' : VersionedJoinMeta (List B)}
    (h : serialize job store e = .ok (store', e')) : e'.bare = e.bare := by
  cases e with
  | join m | fetch f =>
    simp only [serialize] at h
    split at h
    · split at h
      · cases h
      · cases h
        rfl
    · cases h
      rfl

theorem serializeAll_bare (h : serializeAll job es store = .ok (store', es')) :
    es'.map VersionedJoinMeta.bare = es.map VersionedJoinMeta.bare := by
  induction es generalizing store es' with
  | nil =>
    cases h
    rfl
  | cons e es ih =>
    unfold serializeAll at h
    obtain ⟨⟨store₁, e₁⟩, h₁, h⟩ := bind_eq_ok.mp h
    obtain ⟨⟨store₂, es₂⟩, h₂, h⟩ := bind_eq_ok.mp h
    cases h
    rw [map_cons, map_cons, serialize_bare h₁, ih h₂]

theorem serializePending_bare {qs qs' : List (Int × List (VersionedJoinMeta (List B)))}
    (h : serializePending job qs store = .ok (store', qs')) :
    qs'.map (fun q => (q.1, q.2.map VersionedJoinMeta.bare)) =
      qs.map fun q => (q.1, q.2.map VersionedJoinMeta.bare) := by
  induction qs generalizing store qs' with
  | nil =>
    cases h
    rfl
  | cons q qs ih =>
    unfold serializePending at h
    obtain ⟨⟨store₁, es₁⟩, h₁, h⟩ := bind_eq_ok.mp h
    obtain ⟨⟨store₂, qs₂⟩, h₂, h⟩ := bind_eq_ok.mp h
    cases h
    rw [map_cons, map_cons, serializeAll_bare h₁, ih h₂]

/-- What goes along is about the same partition. -/
theorem partId_of_bare (h : es'.map VersionedJoinMeta.bare = es.map VersionedJoinMeta.bare)
    (hes : ∀ e ∈ es, e.partId = p) : ∀ e ∈ es', e.partId = p := by
  intro e he
  have hmem : e.bare ∈ es.map VersionedJoinMeta.bare := h ▸ mem_map_of_mem he
  obtain ⟨e₀, he₀, heq⟩ := mem_map.mp hmem
  rw [← e.partId_bare, ← heq, e₀.partId_bare]
  exact hes e₀ he₀

theorem mem_pendingOf {q : Int × List (VersionedJoinMeta (List B))} (h : q ∈ x.pendingOf p) :
    q.2 = x.pending.val (p, q.1) := by
  unfold pendingOf at h
  obtain ⟨e, he, rfl⟩ := mem_map.mp h
  obtain ⟨he, hp⟩ := mem_filter.mp he
  have hp : e.1.1 = p := of_decide_eq_true hp
  rw [(Multimap.mem_entries he).2, ← hp]

theorem Sited.about (h : Sited job n x) {es : List (VersionedJoinMeta (List B))}
    {store₀ store₁ store₂ : Int × List Int × Int → Option (List (K × M))}
    (hqs : serializePending job (x.pendingOf p) store₀ = .ok (store₁, qs))
    (hes : serializeAll job (x.pc.waitingUpdates p) store₁ = .ok (store₂, es)) :
    (x.books job p qs es).About p where
  waiting := partId_of_bare (serializeAll_bare hes) (h.placed.waiting p)
  pending := by
    intro q hq
    have hbare := serializePending_bare hqs
    have hmem : (q.1, q.2.map VersionedJoinMeta.bare) ∈
        (x.pendingOf p).map fun q => (q.1, q.2.map VersionedJoinMeta.bare) := by
      rw [← hbare]
      exact mem_map_of_mem hq
    obtain ⟨q₀, hq₀, heq⟩ := mem_map.mp hmem
    obtain ⟨-, heq⟩ := Prod.mk.inj heq
    refine partId_of_bare heq.symm fun e he => ?_
    rw [mem_pendingOf hq₀] at he
    exact h.pending _ e he

/-! ## Start -/

/-- The site that has started on a migration. -/
def started (x : Site K M O B) (n : Int) (info : MigrateMeta) (view : List Int) : Site K M O B :=
  { x with
    partToNode := view
    pc := { x.pc with
      stopUpdateingPartitions :=
        if info.fromId = n
        then Function.update x.pc.stopUpdateingPartitions info.partitionId (some false)
        else x.pc.stopUpdateingPartitions } }

theorem startMigrate_eq_ok {view : List Int} (h : x.startMigrate job n info view = .ok r) :
    (info.fromId = n → info.partitionId ∈ x.pc.updateVersions.keys ∧
      x.pc.stopUpdateingPartitions info.partitionId = none) ∧
    r = { site := x.started n info view
          sent := [(info.fromId, .kFlushAll { info with flag := .kFlushAll } false)] } := by
  unfold startMigrate at h
  simp only at h
  split at h
  · next hn =>
    obtain ⟨_, _, h⟩ := bind_eq_ok.mp h
    obtain ⟨_, hup, h⟩ := bind_eq_ok.mp h
    obtain ⟨_, hstop, h⟩ := bind_eq_ok.mp h
    cases h
    refine ⟨fun _ => ⟨check_eq_ok.mp hup, check_eq_ok.mp hstop⟩, ?_⟩
    unfold started
    rw [if_pos hn]
  · next hn =>
    cases h
    refine ⟨fun hn' => absurd hn' hn, ?_⟩
    unfold started
    rw [if_neg hn]

theorem Sited.started (h : Sited job n x) (info : MigrateMeta) (view : List Int) :
    Sited job n (x.started n info view) :=
  { h with
    placed := { h.placed with }
    excl := fun p => { h.excl p with }
    homed := { h.homed with } }

/-! ## Flush -/

/-- The site that has counted one more signal. -/
def counted (x : Site K M O B) (p : Int) : Site K M O B :=
  { x with flushAllCount := Function.update x.flushAllCount p (x.flushAllCount p + 1) }

theorem receiveFlushAll_eq_ok (h : x.receiveFlushAll job n info = .ok r) :
    info.fromId = n ∧
    ((x.flushAllCount info.partitionId + 1 ≠ info.numNodes ∧
        r = { site := x.counted info.partitionId }) ∨
      (x.flushAllCount info.partitionId + 1 = info.numNodes ∧
        (x.pc.runningUpdates info.partitionId).isSome ∧
        r = { site := x, pushed := [.kFlushAll info true] }) ∨
      (x.flushAllCount info.partitionId + 1 = info.numNodes ∧
        x.pc.runningUpdates info.partitionId = none ∧ x.handOver job info = .ok r)) := by
  unfold receiveFlushAll at h
  obtain ⟨_, hfrom, h⟩ := bind_eq_ok.mp h
  refine ⟨check_eq_ok.mp hfrom, ?_⟩
  split at h
  · next hc =>
    split at h
    · next hr =>
      obtain ⟨_, _, h⟩ := bind_eq_ok.mp h
      exact .inr (.inl ⟨hc, hr, (Except.ok.inj h).symm⟩)
    · next hr => exact .inr (.inr ⟨hc, Option.not_isSome_iff_eq_none.mp hr, h⟩)
  · next hc => exact .inl ⟨hc, (Except.ok.inj h).symm⟩

theorem handOver_eq_ok (h : x.handOver job info = .ok r) :
    (x.pc.stopUpdateingPartitions info.partitionId).isSome ∧ info.partitionId ∈ x.parts.keys ∧
    ∃ store₁ pending store waiting,
      serializePending job (x.pendingOf info.partitionId) x.streamStore = .ok (store₁, pending) ∧
      serializeAll job (x.pc.waitingUpdates info.partitionId) store₁ = .ok (store, waiting) ∧
      r = {
        site := x.leave job info.partitionId store
        sent := [(info.toId, .kDest { info with flag := .kDest }
          (x.books job info.partitionId pending waiting)
          (x.parts.val info.partitionId).toBin)] } := by
  unfold handOver at h
  obtain ⟨_, hstop, h⟩ := bind_eq_ok.mp h
  obtain ⟨⟨store₁, pending⟩, h₁, h⟩ := bind_eq_ok.mp h
  obtain ⟨⟨store, waiting⟩, h₂, h⟩ := bind_eq_ok.mp h
  obtain ⟨_, hhas, h⟩ := bind_eq_ok.mp h
  exact ⟨check_eq_ok.mp hstop, check_eq_ok.mp hhas, store₁, pending, store, waiting, h₁, h₂,
    (Except.ok.inj h).symm⟩

/-- What is pending once the queues of `p` are erased. -/
theorem mem_erased {q : Multimap (Int × Int) (VersionedJoinMeta (List B))} {key : Int × Int}
    (h : e ∈ (qs.foldl (fun q e => q.erase (p, e.1)) q).val key) : e ∈ q.val key := by
  induction qs generalizing q with
  | nil => exact h
  | cons r qs ih =>
    have h := ih h
    rw [Multimap.val_erase] at h
    split at h
    · cases h
    · exact h

theorem Sited.leave (h : Sited job n x) (hr : x.pc.runningUpdates p = none)
    (store : Int × List Int × Int → Option (List (K × M))) : Sited job n (x.leave job p store) where
  placed := ⟨(h.placed.setWaiting (q := []) fun _ he => absurd he (by simp)).waiting,
    h.placed.pending⟩
  excl q := { h.excl q with }
  homed := by
    constructor
    · intro q hq
      refine mem_keys_erase.mpr ⟨h.homed.running q hq, ?_⟩
      rintro rfl
      have hq : (x.pc.runningUpdates q).isSome := hq
      rw [hr] at hq
      cases hq
    · intro q hq
      have hq : update x.pc.waitingUpdates p [] q ≠ [] := hq
      by_cases hqp : q = p
      · subst hqp
        exact absurd (update_self _ _ _) hq
      · rw [update_of_ne hqp] at hq
        exact mem_keys_erase.mpr ⟨h.homed.waiting q hq, hqp⟩
  early := h.early
  unpended := h.unpended
  pending key e he := h.pending key e (mem_erased he)
  mapKeys hs q := by
    show q ∈ (if Same job then x.pc.mapVersions.erase p 0 else x.pc.mapVersions).keys ↔
      q ∈ (x.pc.updateVersions.erase p 0).keys
    rw [if_pos hs, mem_keys_erase, mem_keys_erase, h.mapKeys hs q]
  parts q := by
    show q ∈ x.parts.keys.filter (· ≠ p) ↔ q ∈ (x.pc.updateVersions.erase p 0).keys
    rw [mem_keys_erase, mem_filter, h.parts q, decide_eq_true_iff]

/-! ## Destination -/

theorem resume_eq_ok (h : x.resume job n p = .ok y) :
    ∃ pc, ReflTransGen (Tail (x.spec job n)) x.pc pc ∧
      y = { x with pc := { pc with
        toScheduler := pc.toScheduler ++ [⟨.kFinishMigrate, -1, -1, job.planId, p⟩] } } := by
  unfold resume at h
  obtain ⟨pc₁, h₁, h⟩ := bind_eq_ok.mp h
  obtain ⟨pc₂, h₂, h⟩ := bind_eq_ok.mp h
  refine ⟨pc₂, ?_, (Except.ok.inj h).symm⟩
  have h₂ := tryRunWaitingJoins_tail _ (mapError_eq_ok.mp h₂)
  have h₁ := mapError_eq_ok.mp h₁
  split at h₁
  · exact (tryRunSomeMaps_tail _ h₁).trans h₂
  · cases h₁
    exact h₂

theorem migrateDest_eq_ok {bin : List (BinItem K O)} (h : x.migrateDest job n info data bin = .ok r) :
    info.toId = n ∧
    ((x.AwaitsLoad job info.partitionId ∧ r = { site := x, delayed := [.kDest info data bin] }) ∨
      (info.partitionId ∉ x.pc.updateVersions.keys ∧ info.partitionId ∉ x.entries ∧
        ∃ part y, IndexedSeqPartition.fromBin bin = some part ∧
          resume job n (x.settle job info.partitionId data part) info.partitionId = .ok y ∧
          r = { site := y })) := by
  unfold migrateDest at h
  obtain ⟨_, hto, h⟩ := bind_eq_ok.mp h
  refine ⟨check_eq_ok.mp hto, ?_⟩
  split at h
  · next ha =>
    obtain ⟨_, _, h⟩ := bind_eq_ok.mp h
    exact .inl ⟨ha, (Except.ok.inj h).symm⟩
  · obtain ⟨_, _, h⟩ := bind_eq_ok.mp h
    obtain ⟨_, hup, h⟩ := bind_eq_ok.mp h
    obtain ⟨_, hent, h⟩ := bind_eq_ok.mp h
    obtain ⟨_, _, h⟩ := bind_eq_ok.mp h
    split at h
    · cases h
    · next part hpart =>
      obtain ⟨_, _, h⟩ := bind_eq_ok.mp h
      obtain ⟨y, hy, h⟩ := bind_eq_ok.mp h
      exact .inr ⟨check_eq_ok.mp hup, check_eq_ok.mp hent, part, y, hpart, hy,
        (Except.ok.inj h).symm⟩

/-- A request of version `v` of `p` has to wait for a map. -/
def Held (job : MapJoin K M O B) (x : Site K M O B) (p : Int) (r : VersionedJoinMeta (List B)) :
    Prop :=
  Same job ∧ x.pc.mapVersions.val p ≤ r.version

instance (p : Int) (r : VersionedJoinMeta (List B)) : Decidable (Held job x p r) := by
  unfold Held; infer_instance

theorem foldl_place (p : Int) (rs : List (VersionedJoinMeta (List B))) (x : Site K M O B) :
    rs.foldl (fun y r => y.place job p r) x = { x with
      pc := x.pc.setWaiting p
        (x.pc.waitingUpdates p ++ rs.filter fun r => ¬ Held job x p r)
      pending := (rs.filter fun r => Held job x p r).foldl
        (fun q r => q.push (p, r.version) r) x.pending } := by
  induction rs generalizing x with
  | nil =>
    simp only [filter_nil, append_nil, foldl_nil, setWaiting,
      update_eq_self]
  | cons r rs ih =>
    rw [foldl_cons, ih]
    by_cases hr : Held job x p r
    · have hplace : x.place job p r = { x with pending := x.pending.push (p, r.version) r } :=
        if_pos hr
      rw [hplace, filter_cons_of_neg (by simpa using hr),
        filter_cons_of_pos (by simpa using hr), foldl_cons]
      rfl
    · have hplace : x.place job p r = { x with pc := x.pc.pushWaiting p r } := if_neg hr
      rw [hplace, filter_cons_of_pos (by simpa using hr),
        filter_cons_of_neg (by simpa using hr)]
      simp only [pushWaiting, setWaiting, update_self, update_idem,
        append_assoc, singleton_append]
      rfl

/-- The requests that came before the partition and need not wait for a map. -/
def ready (job : MapJoin K M O B) (x : Site K M O B) (p : Int) (data : MigrateData B) :
    List (VersionedJoinMeta (List B)) :=
  (x.pc.bufferedRequests p).filter fun r => ¬ (Same job ∧ data.mapVersion ≤ r.version)

theorem settle_pc (p : Int) (data : MigrateData B) (part : IndexedSeqPartition K O) :
    (x.settle job p data part).pc = { x.pc with
      mapVersions := if Same job then x.pc.mapVersions.set p data.mapVersion else x.pc.mapVersions
      updateVersions := x.pc.updateVersions.set p data.updateVersion
      waitingUpdates := update x.pc.waitingUpdates p
        (data.waitingUpdates ++ x.ready job p data)
      updateTracker := update x.pc.updateTracker p data.updateTracker
      bufferedRequests := update x.pc.bufferedRequests p [] } := by
  have hheld : ∀ r, Held job (enter job { x with
      loadFinished := update x.loadFinished p false } p data) p r ↔
        Same job ∧ data.mapVersion ≤ r.version := by
    intro r
    refine and_congr_right fun hs => ?_
    simp only [enter]
    rw [if_pos hs, val_set_self]
  unfold settle placeAll ready
  simp only [foldl_place, hheld]
  simp only [enter, setWaiting, update_self, update_idem]

/-- What the arrival of `p` leaves alone, and the partition itself. -/
theorem settle_rest (p : Int) (data : MigrateData B) (part : IndexedSeqPartition K O) :
    (x.settle job p data part).partToNode = x.partToNode ∧
      (x.settle job p data part).flushAllCount = x.flushAllCount ∧
      (x.settle job p data part).streamStore = x.streamStore ∧
      (x.settle job p data part).parts = x.parts.set p part ∧
      (x.settle job p data part).entries = insert p x.entries := by
  unfold settle placeAll
  simp only [foldl_place]
  exact ⟨rfl, rfl, rfl, rfl, rfl⟩

theorem mem_pending_foldl (hqs : ∀ q ∈ qs, ∀ e ∈ q.2, e.partId = p)
    (hp : ∀ key, ∀ e ∈ pending.val key, e.partId = key.1) (key : Int × Int)
    (he : e ∈ (qs.foldl (fun q e => e.2.foldl (fun q r => q.push (p, e.1) r) q) pending).val key) :
    e.partId = key.1 := by
  induction qs generalizing pending with
  | nil => exact hp key e he
  | cons q qs ih =>
    refine ih (fun q' hq' => hqs q' (mem_cons_of_mem _ hq')) (fun key e he => ?_) he
    have hval := Multimap.val_foldl_push (fun r => r) q.2 pending (p, q.1) key
    rw [hval] at he
    by_cases hkey : key = (p, q.1)
    · rw [if_pos hkey] at he
      rw [hkey]
      rcases mem_append.mp he with he | he
      · exact hp _ e he
      · rw [map_id'] at he
        exact hqs q mem_cons_self e he
    · rw [if_neg hkey] at he
      exact hp key e he

theorem mem_held_foldl {rs : List (VersionedJoinMeta (List B))} (hrs : ∀ r ∈ rs, r.partId = p)
    (hp : ∀ key, ∀ e ∈ pending.val key, e.partId = key.1) (key : Int × Int)
    (he : e ∈ (rs.foldl (fun q r => q.push (p, r.version) r) pending).val key) :
    e.partId = key.1 := by
  induction rs generalizing pending with
  | nil => exact hp key e he
  | cons r rs ih =>
    refine ih (fun r' hr' => hrs r' (mem_cons_of_mem _ hr')) (fun key e he => ?_) he
    rw [Multimap.val_push] at he
    by_cases hkey : key = (p, r.version)
    · rw [if_pos hkey] at he
      rw [hkey]
      rcases mem_append.mp he with he | he
      · exact hp _ e he
      · rw [mem_singleton.mp he]
        exact hrs r mem_cons_self
    · rw [if_neg hkey] at he
      exact hp key e he

theorem mem_ready {r : VersionedJoinMeta (List B)} (h : r ∈ x.ready job p data) :
    r ∈ x.pc.bufferedRequests p :=
  (mem_filter.mp h).1

theorem Sited.settle (h : Sited job n x) (hd : data.About p) (part : IndexedSeqPartition K O) :
    Sited job n (x.settle job p data part) := by
  have hpc : (x.settle job p data part).pc = _ := settle_pc p data part
  refine {
    placed := ?_
    excl := fun q => ?_
    homed := ?_
    early := ?_
    unpended := fun q v => ?_
    pending := fun key e he => ?_
    mapKeys := fun hs q => ?_
    parts := fun q => ?_ }
  · rw [hpc]
    have hw : Placed (x.pc.setWaiting p (data.waitingUpdates ++ x.ready job p data)) := by
      refine h.placed.setWaiting fun e he => ?_
      rcases mem_append.mp he with he | he
      · exact hd.waiting e he
      · exact h.early p e (mem_ready he)
    exact ⟨hw.waiting, h.placed.pending⟩
  · rw [hpc]
    exact { h.excl q with }
  · rw [hpc]
    constructor
    · intro q hq
      exact mem_keys_set.mpr (.inr (h.homed.running q hq))
    · intro q hq
      have hq : update x.pc.waitingUpdates p _ q ≠ [] := hq
      by_cases hqp : q = p
      · exact mem_keys_set.mpr (.inl hqp)
      · rw [update_of_ne hqp] at hq
        exact mem_keys_set.mpr (.inr (h.homed.waiting q hq))
  · rw [hpc]
    intro q e he
    have he : e ∈ update x.pc.bufferedRequests p [] q := he
    by_cases hqp : q = p
    · subst hqp
      rw [update_self] at he
      cases he
    · rw [update_of_ne hqp] at he
      exact h.early q e he
  · rw [hpc]
    exact h.unpended q v
  · unfold Site.settle placeAll at he
    simp only [foldl_place] at he
    refine mem_held_foldl (fun r hr => ?_) (fun key e he => ?_) key he
    · exact h.early p r (mem_filter.mp hr).1
    · exact mem_pending_foldl hd.pending h.pending key he
  · rw [hpc]
    show q ∈ (if Same job then x.pc.mapVersions.set p data.mapVersion else x.pc.mapVersions).keys ↔
      q ∈ (x.pc.updateVersions.set p data.updateVersion).keys
    rw [if_pos hs, mem_keys_set, mem_keys_set, h.mapKeys hs q]
  · rw [hpc]
    rw [(settle_rest p data part).2.2.2.1]
    show q ∈ (x.parts.set p part).keys ↔ q ∈ (x.pc.updateVersions.set p data.updateVersion).keys
    rw [mem_keys_set, mem_keys_set, h.parts q]

theorem tails_homed {c : Spec} {s s' : PlanController (List B)} (hl : Placed s)
    (hx : ∀ p, Excl c s p) (hh : Homed s) (he : Early s) (hu : ∀ p v, s.pendingUpdates p v = [])
    (ht : ReflTransGen (Tail c) s s') :
    Placed s' ∧ (∀ p, Excl c s' p) ∧ Homed s' ∧ Early s' ∧ SameParts s s' ∧
      ∀ p v, s'.pendingUpdates p v = [] := by
  induction ht with
  | refl => exact ⟨hl, hx, hh, he, .refl s, hu⟩
  | tail _ htu ih =>
    obtain ⟨hl, hx, hh, he, hs, hu⟩ := ih
    exact ⟨placed_tail hl htu, excl_tail hl hx htu, homed_tail hl hh htu, early_tail he htu,
      hs.trans (sameParts_tail htu), unpended_tail hu htu⟩

theorem Sited.resume (h : Sited job n x) (hr : x.resume job n p = .ok y) :
    Sited job n y ∧ Steady x y := by
  obtain ⟨pc, htail, rfl⟩ := resume_eq_ok hr
  obtain ⟨hl, hx, hh, he, hs, hu⟩ := tails_homed h.placed (fun q => (excl_spec _).mpr (h.excl q))
    h.homed h.early h.unpended htail
  refine ⟨?_, ⟨⟨hs.update, hs.map, hs.leaving⟩, rfl, rfl, rfl⟩⟩
  exact {
    placed := { hl with }
    excl := fun q => { (excl_spec x).mp (hx q) with }
    homed := { hh with }
    early := he
    unpended := hu
    pending := h.pending
    mapKeys := fun hsm q => by
      show q ∈ pc.mapVersions.keys ↔ q ∈ pc.updateVersions.keys
      rw [hs.map, hs.update]
      exact h.mapKeys hsm q
    parts := fun q => by
      show q ∈ x.parts.keys ↔ q ∈ pc.updateVersions.keys
      rw [hs.update]
      exact h.parts q }

/-! ## All messages -/

theorem prepareMsgAndSend_eq_ok {key : Int × Int} {ids : List Int} {stream : List (K × M)}
    (h : x.prepareMsgAndSend job n key ids stream = .ok r) :
    (nodeOf x.partToNode key.1 = n ∧ x.streamStore (key.1, ids, key.2) = none ∧
      r = {
        site := { x with
          streamStore := update x.streamStore (key.1, ids, key.2) (some stream) }
        pushed := [.join ⟨key.1, key.2, .ext ids, true, []⟩] }) ∨
    (nodeOf x.partToNode key.1 ≠ n ∧
      r = {
        site := x
        sent := [(nodeOf x.partToNode key.1,
          .join ⟨key.1, key.2, .ext ids, false, job.codec.encodeAll stream⟩)] }) := by
  unfold prepareMsgAndSend at h
  simp only at h
  split at h
  · next hn =>
    obtain ⟨_, hs, h⟩ := bind_eq_ok.mp h
    exact .inl ⟨hn, check_eq_ok.mp hs, (Except.ok.inj h).symm⟩
  · next hn => exact .inr ⟨hn, (Except.ok.inj h).symm⟩

/-- Two sites look the same from `p`. -/
structure Alike (p : Int) (x y : Site K M O B) : Prop where
  count : y.flushAllCount p = x.flushAllCount p
  closed : y.pc.stopUpdateingPartitions p = some false ↔ x.pc.stopUpdateingPartitions p = some false

theorem Alike.refl (p : Int) (x : Site K M O B) : Alike p x x := ⟨rfl, Iff.rfl⟩

theorem Alike.of_steady {x y : Site K M O B} (h : Site.Steady x y) (p : Int) : Alike p x y where
  count := by rw [h.flushAllCount]
  closed := h.same.leaving p

/-- A partition that arrives brings no order to leave. -/
theorem Sited.dest_alike (hs : Sited job n x) (hd : data.About p) {part : IndexedSeqPartition K O}
    (hr : (x.settle job p data part).resume job n p = .ok y) (q : Int) : Alike q x y := by
  have hy : Alike q (x.settle job p data part) y := .of_steady ((hs.settle hd part).resume hr).2 q
  refine ⟨?_, ?_⟩
  · rw [hy.count, (settle_rest _ data part).2.1]
  · rw [hy.closed, settle_pc]

/-- A handler leaves the other partitions as they are. -/
theorem Sited.handle_alike [LinearOrder K] (hs : Sited job n x) {w : Wire K O B} (hw : w.Proper)
    (h : x.handle job n w = .ok r) (hp : p ≠ w.partId) : Alike p x r.site := by
  cases w with
  | join m =>
    obtain ⟨y, hy, h⟩ := bind_eq_ok.mp h
    cases h
    exact .of_steady (hs.act hy).2 p
  | kStartMigrate info view =>
    obtain ⟨-, rfl⟩ := startMigrate_eq_ok h
    refine ⟨rfl, ?_⟩
    show (if info.fromId = n then update x.pc.stopUpdateingPartitions info.partitionId
      (some false) else x.pc.stopUpdateingPartitions) p = some false ↔ _
    split
    · rw [update_of_ne (show p ≠ info.partitionId from hp)]
    · exact Iff.rfl
  | kFlushAll info again =>
    obtain ⟨-, ⟨-, rfl⟩ | ⟨-, -, rfl⟩ | ⟨-, -, h⟩⟩ := receiveFlushAll_eq_ok h
    · exact ⟨update_of_ne hp _ _, Iff.rfl⟩
    · exact .refl p x
    · obtain ⟨-, -, _, _, _, _, -, -, rfl⟩ := handOver_eq_ok h
      refine ⟨update_of_ne hp _ _, ?_⟩
      show update x.pc.stopUpdateingPartitions info.partitionId _ p = _ ↔ _
      rw [update_of_ne (show p ≠ info.partitionId from hp)]
  | kDest info data bin =>
    obtain ⟨-, ⟨-, rfl⟩ | ⟨-, -, part, y, -, hy, rfl⟩⟩ := migrateDest_eq_ok h
    · exact .refl p x
    · exact hs.dest_alike hw.2 hy p

/-- A handler keeps the site in order and sends proper messages about the same partition. -/
theorem Sited.handle [LinearOrder K] (hs : Sited job n x) {w : Wire K O B} (hw : w.Proper)
    (h : x.handle job n w = .ok r) : Sited job n r.site ∧
      ∀ w' ∈ r.wires, w'.Proper ∧ w'.partId = w.partId := by
  cases w with
  | join m =>
    obtain ⟨y, hy, h⟩ := bind_eq_ok.mp h
    cases h
    exact ⟨(hs.act hy).1, fun w' hw' => absurd hw' (by simp [Handled.wires])⟩
  | kStartMigrate info view =>
    obtain ⟨-, rfl⟩ := startMigrate_eq_ok h
    refine ⟨hs.started info view, fun w' hw' => ?_⟩
    rw [mem_singleton.mp hw']
    exact ⟨rfl, rfl⟩
  | kFlushAll info again =>
    obtain ⟨-, ⟨-, rfl⟩ | ⟨-, -, rfl⟩ | ⟨-, hr, h⟩⟩ := receiveFlushAll_eq_ok h
    · exact ⟨{ hs with }, fun w' hw' => absurd hw' (by simp [Handled.wires])⟩
    · refine ⟨hs, fun w' hw' => ?_⟩
      rw [mem_singleton.mp hw']
      exact ⟨hw, rfl⟩
    · obtain ⟨-, -, _, _, _, _, hp, hq, rfl⟩ := handOver_eq_ok h
      refine ⟨hs.leave hr _, fun w' hw' => ?_⟩
      rw [mem_singleton.mp hw']
      exact ⟨⟨rfl, hs.about hp hq⟩, rfl⟩
  | kDest info data bin =>
    obtain ⟨-, ⟨-, rfl⟩ | ⟨-, -, part, y, -, hy, rfl⟩⟩ := migrateDest_eq_ok h
    · refine ⟨hs, fun w' hw' => ?_⟩
      rw [mem_singleton.mp hw']
      exact ⟨hw, rfl⟩
    · exact ⟨((hs.settle hw.2 part).resume hy).1, fun w' hw' => absurd hw' (by simp [Handled.wires])⟩

end Site

end Tangram
