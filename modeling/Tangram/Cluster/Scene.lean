import Tangram.Cluster.Migration
import Tangram.Lib.Handoff
import Tangram.Worker.Handlers

/-!
# A migration is a hand-over

Seen from one update partition, the cluster is a `Handoff` of that partition.  A message
that is handled is a step of the hand-over of its partition (`Ordered.scene_self`) and
leaves the others as they are, so the invariant of hand-overs holds in every run.

    Reach (step job) (Enabled job) (init job) s → Ordered job s        (ordered_reachable)
-/

namespace Tangram

open StepRun Relation List Function

variable {K M O B : Type} {m : Handoff.Msg Int}

/-! ## The scene of a partition -/

def MigrateMeta.order (info : MigrateMeta) : Handoff.Order Int :=
  ⟨info.fromId, info.toId, info.numNodes⟩

/-- Join messages are no part of the hand-over. -/
def Wire.msg : Wire K O B → Option (Handoff.Msg Int)
  | .join _ => none
  | .kStartMigrate info _ => some (.start info.order)
  | .kFlushAll info _ => some (.flush info.order)
  | .kDest info _ _ => some (.parcel info.order)

def Packet.post (p : Int) (k : Packet K O B) : Option (Int × Handoff.Msg Int) :=
  if k.wire.partId = p then k.wire.msg.map fun m => (k.dst, m) else none

/-- What is under way for `p`. -/
def about (p : Int) (l : List (Packet K O B)) : Multiset (Int × Handoff.Msg Int) :=
  Multiset.ofList (l.filterMap (Packet.post p))

section About

variable {p : Int} {l l' : List (Packet K O B)} {k : Packet K O B}

@[simp] theorem about_nil : about p ([] : List (Packet K O B)) = 0 := rfl

theorem about_append : about p (l ++ l') = about p l + about p l' := by
  unfold about
  rw [filterMap_append, ← Multiset.coe_add]

theorem about_perm (h : l.Perm l') : about p l = about p l' :=
  Multiset.coe_eq_coe.mpr (h.filterMap _)

theorem about_eq_zero (h : ∀ k ∈ l, k.wire.partId ≠ p ∨ k.wire.msg = none) : about p l = 0 := by
  unfold about
  rw [filterMap_eq_nil_iff.mpr fun k hk => ?_]
  · rfl
  · unfold Packet.post
    rcases h k hk with hk | hk
    · rw [if_neg hk]
    · rw [hk]
      exact ite_self none

theorem about_cons (hm : k.wire.msg = some m) (hp : k.wire.partId = p) :
    about p (k :: l) = (k.dst, m) ::ₘ about p l := by
  unfold about
  rw [filterMap_cons_some (show Packet.post p k = some (k.dst, m) from ?_)]
  · rfl
  · unfold Packet.post
    rw [if_pos hp, hm]
    rfl

end About

namespace Migrating

open Site

variable {job : MapJoin K M O B} {s s' : Migrating K M O B} {r : Handled K M O B} {k : Packet K O B}
  {n p : Int}

/-- The messages under way, those in the work queues first. -/
def packets (s : Migrating K M O B) : List (Packet K O B) := s.queue ++ s.net

def scene (s : Migrating K M O B) (p : Int) : Handoff Int where
  posts := about p (s.packets ++ s.delayed)
  count n := (s.site n).flushAllCount p
  closed n := (s.site n).pc.stopUpdateingPartitions p = some false
  order := (s.moving p).map MigrateMeta.order

structure Ordered (job : MapJoin K M O B) (s : Migrating K M O B) : Prop where
  sited : ∀ n, Sited job n (s.site n)
  proper : ∀ k ∈ s.packets ++ s.delayed, k.wire.Proper
  scenes : ∀ p, Handoff.Inv (s.scene p)

theorem ordered_init : Ordered job (init job : Migrating K M O B) where
  sited n := sited_init
  proper k hk := absurd hk (by simp [init, packets])
  scenes p := by
    refine .quiet ⟨rfl, rfl, fun _ => rfl, fun n hn => ?_⟩
    exact absurd hn (by simp [scene, init, Site.init, PlanController.setup])

/-- A partition that is stopped, but has not left, is being moved. -/
theorem Ordered.moving_of_closed (h : Ordered job s) {q n : Int}
    (hc : (s.site n).pc.stopUpdateingPartitions q = some false) :
    ∃ info, s.moving q = some info ∧ info.fromId = n := by
  obtain ⟨o, ho, hn⟩ := (h.scenes q).order_of_closed (n := n) hc
  obtain ⟨info, hinfo, rfl⟩ := Option.map_eq_some_iff.mp ho
  exact ⟨info, hinfo, hn⟩

/-! ## What a node leaves and sends -/

/-- The packets of a node for itself. -/
def pushedFrom (n : Int) (ws : List (Wire K O B)) : List (Packet K O B) :=
  ws.map fun w => ⟨some n, n, w⟩

def sentFrom (n : Int) (ws : List (Int × Wire K O B)) : List (Packet K O B) :=
  ws.map fun x => ⟨some n, x.1, x.2⟩

/-- All that a handler at `n` sends. -/
def sentBy (n : Int) (r : Handled K M O B) : List (Packet K O B) :=
  pushedFrom n r.pushed ++ (sentFrom n r.sent ++ pushedFrom n r.delayed)

theorem packets_put (s : Migrating K M O B) (n : Int) (r : Handled K M O B) :
    ((s.put n r).packets ++ (s.put n r).delayed).Perm
      ((s.packets ++ s.delayed) ++ sentBy n r) := by
  show (((s.queue ++ pushedFrom n r.pushed) ++ (s.net ++ sentFrom n r.sent)) ++
    (s.delayed ++ pushedFrom n r.delayed)).Perm _
  unfold packets sentBy
  rw [← Multiset.coe_eq_coe]
  simp only [← Multiset.coe_add]
  ac_rfl

theorem mem_put (hk : k ∈ (s.put n r).packets ++ (s.put n r).delayed) :
    k ∈ s.packets ++ s.delayed ∨ k.wire ∈ r.wires := by
  rw [(packets_put s n r).mem_iff, mem_append] at hk
  refine hk.imp id fun hk => ?_
  simp only [sentBy, pushedFrom, sentFrom, mem_append, mem_map] at hk
  unfold Handled.wires
  rcases hk with ⟨w, hw, rfl⟩ | ⟨w, hw, rfl⟩ | ⟨w, hw, rfl⟩
  · exact mem_append_right _ (mem_append_left _ hw)
  · exact mem_append_left _ (mem_map_of_mem hw)
  · exact mem_append_right _ (mem_append_right _ hw)

/-- The hand-over of `p` once `r` is left at `n`, by what it was without the message handled. -/
theorem scene_put {n p : Int} {g : Handoff Int}
    (hposts : about p (s.packets ++ s.delayed) + about p (sentBy n r) = g.posts)
    (hcount : update (s.scene p).count n (r.site.flushAllCount p) = g.count)
    (hclosed : update (s.scene p).closed n (r.site.pc.stopUpdateingPartitions p = some false) = g.closed)
    (horder : (s.moving p).map MigrateMeta.order = g.order) : (s.put n r).scene p = g := by
  refine Handoff.ext ?_ ?_ ?_ horder
  · rw [← hposts, ← about_append]
    exact about_perm (packets_put s n r)
  · rw [← hcount]
    exact funext (Function.apply_update (fun _ z => z.flushAllCount p) s.site n r.site)
  · rw [← hclosed]
    exact funext (Function.apply_update (fun (_ : Int) (z : Site K M O B) =>
      z.pc.stopUpdateingPartitions p = some false) s.site n r.site)

theorem scene_put_alike {n p : Int} (hr : ∀ k ∈ sentBy n r, k.wire.partId ≠ p ∨ k.wire.msg = none)
    (halike : Alike p (s.site n) r.site) : (s.put n r).scene p = s.scene p := by
  refine scene_put ?_ ?_ ?_ rfl
  · rw [about_eq_zero hr, add_zero]
    rfl
  · rw [halike.count]
    exact update_eq_self n (s.scene p).count
  · rw [propext halike.closed]
    exact update_eq_self n (s.scene p).closed

/-- A handler sends one message of the hand-over. -/
theorem about_sentBy {n p : Int} (hr : sentBy n r = [k]) (hm : k.wire.msg = some m)
    (hp : k.wire.partId = p) (l : Multiset (Int × Handoff.Msg Int)) :
    l + about p (sentBy n r) = (k.dst, m) ::ₘ l := by
  rw [hr, about_cons hm hp, about_nil, Multiset.add_cons, add_zero]

theorem mem_sentBy (hk : k ∈ sentBy n r) : k.wire ∈ r.wires := by
  refine (mem_put (s := ⟨fun _ => r.site, [], [], [], [], fun _ => none, [], fun _ => 0,
    fun _ => none⟩) (n := n) ?_).resolve_left (by simp [packets])
  rw [(packets_put _ n r).mem_iff]
  exact mem_append_right _ hk

/-- A node leaves `r`. -/
theorem ordered_put (hsited : ∀ m, Sited job m (s.site m)) (hr : Sited job n r.site)
    (hproper : ∀ k ∈ s.packets ++ s.delayed, k.wire.Proper) (hwires : ∀ w ∈ r.wires, w.Proper)
    (hscenes : ∀ p, Handoff.Inv ((s.put n r).scene p)) : Ordered job (s.put n r) where
  sited m := by
    show Sited job m (update s.site n r.site m)
    by_cases hm : m = n
    · subst hm
      rw [update_self]
      exact hr
    · rw [update_of_ne hm]
      exact hsited m
  proper k hk := (mem_put hk).elim (hproper k) (hwires _)
  scenes := hscenes

/-- A site changes in a way that its scenes do not show. -/
theorem Ordered.set (h : Ordered job s) {y : Site K M O B} (hy : Sited job n y)
    (hs : Steady (s.site n) y) : Ordered job (s.set n y) := by
  have hput : s.set n y = s.put n { site := y } := by
    simp [Migrating.put, Migrating.set]
  rw [hput]
  refine ordered_put h.sited hy h.proper (fun w hw => absurd hw (by simp [Handled.wires]))
    fun p => ?_
  rw [scene_put_alike (fun k hk => absurd hk (by simp [sentBy, pushedFrom, sentFrom]))
    (.of_steady hs p)]
  exact h.scenes p

theorem Ordered.send (h : Ordered job s) {key : Int × Int} {ids : List Int} {stream : List (K × M)}
    (hr : (s.site n).prepareMsgAndSend job n key ids stream = .ok r)
    (sent : List ((Int × Int) × List Int)) : Ordered job (put { s with sent := sent } n r) := by
  have hcases : Sited job n r.site ∧ Steady (s.site n) r.site ∧
      ∀ w ∈ r.wires, w.Proper ∧ w.msg = none := by
    rcases prepareMsgAndSend_eq_ok hr with ⟨-, -, rfl⟩ | ⟨-, rfl⟩
    · refine ⟨{ h.sited n with }, ⟨.refl _, rfl, rfl, rfl⟩, fun w hw => ?_⟩
      rw [mem_singleton.mp hw]
      exact ⟨trivial, rfl⟩
    · refine ⟨h.sited n, ⟨.refl _, rfl, rfl, rfl⟩, fun w hw => ?_⟩
      rw [mem_singleton.mp hw]
      exact ⟨trivial, rfl⟩
  obtain ⟨hsited, hsteady, hwires⟩ := hcases
  refine ordered_put h.sited hsited h.proper
    (fun w hw => (hwires w hw).1) fun p => ?_
  have heq : scene (put { s with sent := sent } n r) p = s.scene p :=
    scene_put_alike (fun k hk => .inr (hwires _ (mem_sentBy hk)).2) (.of_steady hsteady p)
  rw [heq]
  exact h.scenes p

/-! ## Packets change their place -/

theorem Ordered.perm (h : Ordered job s) (hsite : s'.site = s.site) (hmoving : s'.moving = s.moving)
    (hp : (s'.packets ++ s'.delayed).Perm (s.packets ++ s.delayed)) : Ordered job s' where
  sited n := hsite ▸ h.sited n
  proper k hk := h.proper k (hp.mem_iff.mp hk)
  scenes p := by
    have heq : s'.scene p = s.scene p := by
      unfold scene
      rw [about_perm hp, hsite, hmoving]
    rw [heq]
    exact h.scenes p

/-- A message arrives. -/
theorem packets_arrive {i : Nat} (hi : s.net[i]? = some k) :
    (packets { s with net := s.net.eraseIdx i, queue := s.queue ++ [k] } ++ s.delayed).Perm
      (s.packets ++ s.delayed) := by
  refine .append_right _ ?_
  show ((s.queue ++ [k]) ++ s.net.eraseIdx i).Perm (s.queue ++ s.net)
  rw [append_assoc]
  exact (perm_cons_of_getElem? hi).symm.append_left s.queue

/-- A delayed message is pushed. -/
theorem packets_push {i : Nat} (hi : s.delayed[i]? = some k) :
    (packets { s with delayed := s.delayed.eraseIdx i, queue := s.queue ++ [k] } ++
      s.delayed.eraseIdx i).Perm (s.packets ++ s.delayed) := by
  show (((s.queue ++ [k]) ++ s.net) ++ s.delayed.eraseIdx i).Perm ((s.queue ++ s.net) ++ s.delayed)
  rw [append_assoc, append_assoc, append_assoc]
  refine .append_left s.queue (.trans ?_ (.append_left s.net (perm_cons_of_getElem? hi).symm))
  rw [singleton_append]
  exact perm_middle.symm

/-! ## The scheduler moves a partition -/

/-- The message that starts the migration at `n`. -/
def startFor (job : MapJoin K M O B) (s : Migrating K M O B) (p toId n : Int) : Packet K O B :=
  ⟨none, n, .kStartMigrate (s.info job p toId)
    ((⟨(s.info job p toId).fromId, toId, p⟩ : Migration).apply s.partToNode)⟩

theorem packets_migrate (p toId : Int) :
    ((s.migrate job p toId).packets ++ (s.migrate job p toId).delayed).Perm
      ((s.packets ++ s.delayed) ++ job.nodes.map (s.startFor job p toId)) := by
  show ((s.queue ++ (s.net ++ job.nodes.map (s.startFor job p toId))) ++ s.delayed).Perm _
  unfold packets
  rw [← Multiset.coe_eq_coe]
  simp only [← Multiset.coe_add]
  ac_rfl

theorem Ordered.migrate (h : Ordered job s) {p toId : Int}
    (he : s.Enabled job (.migrate p toId)) : Ordered job (s.migrate job p toId) := by
  obtain ⟨-, hmoving, -, -⟩ := he
  have hperm : ((s.migrate job p toId).packets ++ (s.migrate job p toId).delayed).Perm _ :=
    packets_migrate p toId
  have hstarts : ∀ k ∈ job.nodes.map (s.startFor job p toId),
      k.wire.Proper ∧ k.wire.partId = p := by
    intro k hk
    obtain ⟨m, -, rfl⟩ := mem_map.mp hk
    exact ⟨trivial, rfl⟩
  refine ⟨h.sited, fun k hk => ?_, fun q => ?_⟩
  · rw [hperm.mem_iff] at hk
    rcases mem_append.mp hk with hk | hk
    · exact h.proper k hk
    · exact (hstarts k hk).1
  · have hposts : ((s.migrate job p toId).scene q).posts =
        (s.scene q).posts + about q (job.nodes.map (s.startFor job p toId)) :=
      (about_perm hperm).trans about_append
    by_cases hq : q = p
    · subst hq
      have heq : (s.migrate job q toId).scene q =
          (s.scene q).ordered job.nodes (s.info job q toId).order := by
        refine Handoff.ext (hposts.trans ?_) rfl rfl ?_
        · have hpost : Packet.post q ∘ s.startFor job q toId = fun m =>
              some (m, Handoff.Msg.start (s.info job q toId).order) := funext fun m => if_pos rfl
          unfold about
          rw [filterMap_map, hpost, filterMap_eq_map']
          rfl
        · show (update s.moving q (some (s.info job q toId)) q).map MigrateMeta.order = _
          rw [update_self]
          rfl
      have hnone : (s.scene q).order = none := by
        show (s.moving q).map MigrateMeta.order = none
        rw [hmoving]
        rfl
      rw [heq]
      exact (h.scenes q).step job.nodes (.order hnone rfl)
    · have heq : (s.migrate job p toId).scene q = s.scene q := by
        refine Handoff.ext (hposts.trans ?_) rfl rfl ?_
        · rw [about_eq_zero fun k hk => .inl fun hkq => hq (hkq.symm.trans (hstarts k hk).2),
            add_zero]
        · show (update s.moving p (some (s.info job p toId)) q).map MigrateMeta.order = _
          rw [update_of_ne hq]
          rfl
      rw [heq]
      exact h.scenes q

/-! ## A message is handled -/

/-- A message is taken out of the work queue, and the record of the run brought up to date. -/
def taken (s : Migrating K M O B) (i : Nat) (k : Packet K O B) (r : Handled K M O B) :
    Migrating K M O B :=
  { s.note k.dst r k.wire with queue := s.queue.eraseIdx i }

theorem taken_rest (i : Nat) (k : Packet K O B) (r : Handled K M O B) :
    (s.taken i k r).site = s.site ∧ (s.taken i k r).net = s.net ∧
      (s.taken i k r).delayed = s.delayed := by
  unfold taken note
  cases k.wire <;> exact ⟨rfl, rfl, rfl⟩

theorem step_handle [LinearOrder K] {i : Nat} (hs : step job s (.handle i) = .ok s') :
    s' = s ∨ ∃ k r, s.queue[i]? = some k ∧
      (s.site k.dst).handle job k.dst k.wire = .ok r ∧ s' = put (s.taken i k r) k.dst r := by
  simp only [step] at hs
  split at hs
  · cases hs
    exact .inl rfl
  · next k hi =>
    obtain ⟨r, hr, hs⟩ := bind_eq_ok.mp hs
    cases hs
    refine .inr ⟨k, r, hi, hr, ?_⟩
    unfold taken note
    cases k.wire <;> rfl

/-- Only a parcel that is delivered ends a migration, that of its own partition. -/
theorem taken_moving (i : Nat) (k : Packet K O B) (r : Handled K M O B)
    (hp : p ≠ k.wire.partId ∨ ∀ info data bin, k.wire ≠ .kDest info data bin) :
    (s.taken i k r).moving p = s.moving p := by
  revert hp
  unfold taken note
  cases k.wire with
  | kDest info data bin =>
    rintro (hp | hp)
    · show (if r.delayed.isEmpty then update s.moving info.partitionId none
        else s.moving) p = _
      split
      · exact update_of_ne hp _ _
      · rfl
    · exact absurd rfl (hp info data bin)
  | _ => exact fun _ => rfl

section Handle

variable {i : Nat} {k : Packet K O B} {r : Handled K M O B} {info : MigrateMeta}

theorem packets_taken (hi : s.queue[i]? = some k) (r : Handled K M O B) :
    (s.packets ++ s.delayed).Perm
      (k :: ((s.taken i k r).packets ++ (s.taken i k r).delayed)) := by
  obtain ⟨-, hnet, hdel⟩ := taken_rest (s := s) i k r
  have hqueue : (s.taken i k r).queue = s.queue.eraseIdx i := rfl
  unfold packets
  rw [hnet, hdel, hqueue]
  exact ((perm_cons_of_getElem? hi).append_right _).append_right _

/-- The messages besides the one that is taken. -/
theorem posts_taken (hi : s.queue[i]? = some k) (r : Handled K M O B) (hm : k.wire.msg = some m)
    (hp : k.wire.partId = p) :
    (s.scene p).posts =
      (k.dst, m) ::ₘ about p ((s.taken i k r).packets ++ (s.taken i k r).delayed) :=
  (about_perm (packets_taken hi r)).trans (about_cons hm hp)

theorem scene_taken : ((s.taken i k r).scene p).count = (s.scene p).count ∧
    ((s.taken i k r).scene p).closed = (s.scene p).closed := by
  unfold scene
  rw [(taken_rest i k r).1]
  exact ⟨rfl, rfl⟩

/-- A message that has no part in the hand-over of `p`. -/
theorem scene_other [LinearOrder K] (h : Ordered job s) (hi : s.queue[i]? = some k)
    (hr : (s.site k.dst).handle job k.dst k.wire = .ok r) (hp : p ≠ k.wire.partId) :
    (put (s.taken i k r) k.dst r).scene p = s.scene p := by
  have hperm := packets_taken hi r
  have hproper := h.proper k (hperm.mem_iff.mpr mem_cons_self)
  obtain ⟨-, hwires⟩ := (h.sited k.dst).handle hproper hr
  rw [scene_put_alike (fun k' hk' => .inl fun hkp => hp (hkp.symm.trans (hwires _
    (mem_sentBy hk')).2))]
  · refine Handoff.ext ?_ (scene_taken).1 (scene_taken).2 ?_
    · refine ((about_perm hperm).trans ?_).symm
      rw [← singleton_append, about_append, about_eq_zero fun k' hk' => ?_, zero_add]
      · rfl
      · rw [mem_singleton.mp hk']
        exact .inl (Ne.symm hp)
    · show ((s.taken i k r).moving p).map _ = _
      rw [taken_moving i k r (.inl hp)]
      rfl
  · rw [(taken_rest i k r).1]
    exact (h.sited k.dst).handle_alike hproper hr hp

/-- The message of a partition whose hand-over becomes `g`. -/
theorem scene_self {g : Handoff Int}
    (hposts : about p ((s.taken i k r).packets ++ (s.taken i k r).delayed) + about p (sentBy k.dst r) = g.posts)
    (hcount : update (s.scene p).count k.dst (r.site.flushAllCount p) = g.count)
    (hclosed : update (s.scene p).closed k.dst (r.site.pc.stopUpdateingPartitions p = some false) = g.closed)
    (horder : ((s.taken i k r).moving p).map MigrateMeta.order = g.order) :
    (put (s.taken i k r) k.dst r).scene p = g := by
  refine scene_put hposts ?_ ?_ horder
  · rw [scene_taken.1]
    exact hcount
  · rw [scene_taken.2]
    exact hclosed

theorem Ordered.scene_start [LinearOrder K] (h : Ordered job s) (hi : s.queue[i]? = some k)
    (hr : (s.site k.dst).handle job k.dst k.wire = .ok r) {view : List Int}
    (hw : k.wire = .kStartMigrate info view) :
    Handoff.Inv ((put (s.taken i k r) k.dst r).scene info.partitionId) := by
  have hp : k.wire.partId = info.partitionId := by rw [hw]; rfl
  have hm : k.wire.msg = some (.start info.order) := by rw [hw]; rfl
  have hposts := posts_taken hi r hm hp
  have hmoving := taken_moving (s := s) i k r (p := info.partitionId)
    (.inr fun _ _ _ => by rw [hw]; simp)
  rw [hw] at hr
  obtain ⟨-, rfl⟩ := startMigrate_eq_ok hr
  rw [scene_self (g := (s.scene info.partitionId).started k.dst info.order _) ?_ ?_ ?_
    (by rw [hmoving]; rfl)]
  · exact (h.scenes _).step job.nodes (.start hposts)
  · exact about_sentBy (k := ⟨some k.dst, info.fromId,
      .kFlushAll { info with flag := .kFlushAll } false⟩) rfl rfl rfl _
  · exact update_eq_self k.dst (s.scene info.partitionId).count
  · show update (s.scene info.partitionId).closed k.dst _ =
      update (s.scene info.partitionId).closed k.dst _
    congr 1
    show ((if info.fromId = k.dst then update (s.site k.dst).pc.stopUpdateingPartitions
      info.partitionId (some false) else (s.site k.dst).pc.stopUpdateingPartitions)
        info.partitionId = some false) = (info.fromId = k.dst ∨ _)
    by_cases hf : info.fromId = k.dst
    · rw [if_pos hf, update_self]
      exact propext ⟨fun _ => .inl hf, fun _ => rfl⟩
    · rw [if_neg hf]
      exact propext (or_iff_right hf).symm

theorem Ordered.scene_flush [LinearOrder K] (h : Ordered job s) (hi : s.queue[i]? = some k)
    (hr : (s.site k.dst).handle job k.dst k.wire = .ok r) {again : Bool}
    (hw : k.wire = .kFlushAll info again) :
    Handoff.Inv ((put (s.taken i k r) k.dst r).scene info.partitionId) := by
  have hp : k.wire.partId = info.partitionId := by rw [hw]; rfl
  have hm : k.wire.msg = some (.flush info.order) := by rw [hw]; rfl
  have hposts := posts_taken hi r hm hp
  have hmoving := taken_moving (s := s) i k r (p := info.partitionId)
    (.inr fun _ _ _ => by rw [hw]; simp)
  rw [hw] at hr
  obtain ⟨-, ⟨-, rfl⟩ | ⟨-, -, rfl⟩ | ⟨hc, -, hr⟩⟩ := receiveFlushAll_eq_ok hr
  · -- one more signal
    rw [scene_self (g := (s.scene info.partitionId).counted k.dst _) (add_zero _) ?_ ?_
      (by rw [hmoving]; rfl)]
    · exact (h.scenes _).step job.nodes (.count hposts)
    · show update (s.scene info.partitionId).count k.dst
        (update (s.site k.dst).flushAllCount info.partitionId _ info.partitionId) = _
      rw [update_self]
      rfl
    · exact update_eq_self k.dst (s.scene info.partitionId).closed
  · -- the last signal goes back to the work queue
    rw [scene_self (g := s.scene info.partitionId) ?_ ?_ ?_ (by rw [hmoving]; rfl)]
    · exact h.scenes _
    · refine (about_sentBy (k := ⟨some k.dst, k.dst, .kFlushAll info true⟩) rfl rfl rfl _).trans ?_
      exact hposts.symm
    · exact update_eq_self k.dst (s.scene info.partitionId).count
    · exact update_eq_self k.dst (s.scene info.partitionId).closed
  · -- the partition leaves
    obtain ⟨-, -, _, pending, store, waiting, -, -, rfl⟩ := handOver_eq_ok hr
    rw [scene_self (g := (s.scene info.partitionId).shipped k.dst info.order _) ?_ ?_ ?_
      (by rw [hmoving]; rfl)]
    · exact (h.scenes _).step job.nodes (.ship hposts hc)
    · exact about_sentBy (k := ⟨some k.dst, info.toId, .kDest { info with flag := .kDest } _ _⟩)
        rfl rfl rfl _
    · show update (s.scene info.partitionId).count k.dst
        (update (s.site k.dst).flushAllCount info.partitionId _ info.partitionId) = _
      rw [update_self]
      rfl
    · show update (s.scene info.partitionId).closed k.dst
        (update _ info.partitionId _ _ = _) = update _ _ _
      congr 1
      rw [update_self]
      refine propext ⟨fun hm => ?_, False.elim⟩
      split at hm
      · cases hm
      · cases hm

theorem Ordered.scene_dest [LinearOrder K] (h : Ordered job s) (hi : s.queue[i]? = some k)
    (hr : (s.site k.dst).handle job k.dst k.wire = .ok r) {data : MigrateData B}
    {bin : List (BinItem K O)} (hw : k.wire = .kDest info data bin) :
    Handoff.Inv ((put (s.taken i k r) k.dst r).scene info.partitionId) := by
  have hp : k.wire.partId = info.partitionId := by rw [hw]; rfl
  have hm : k.wire.msg = some (.parcel info.order) := by rw [hw]; rfl
  have hposts := posts_taken hi r hm hp
  have hproper := h.proper k ((packets_taken hi r).mem_iff.mpr mem_cons_self)
  have hmoving : (s.taken i k r).moving =
      if r.delayed.isEmpty then update s.moving info.partitionId none else s.moving := by
    unfold taken note
    rw [hw]
  rw [hw] at hr hproper
  obtain ⟨-, ⟨-, rfl⟩ | ⟨-, -, part, y, -, hy, rfl⟩⟩ := migrateDest_eq_ok hr
  · -- the co-allocated partition is not loaded yet
    rw [scene_self (g := s.scene info.partitionId) ?_ ?_ ?_ (by rw [hmoving]; rfl)]
    · exact h.scenes _
    · refine (about_sentBy (k := ⟨some k.dst, k.dst, .kDest info data bin⟩) rfl rfl rfl _).trans ?_
      exact hposts.symm
    · exact update_eq_self k.dst (s.scene info.partitionId).count
    · exact update_eq_self k.dst (s.scene info.partitionId).closed
  · have halike := (h.sited k.dst).dest_alike hproper.2 hy info.partitionId
    rw [scene_self (g := (s.scene info.partitionId).delivered _) (add_zero _) ?_ ?_ ?_]
    · exact (h.scenes _).step job.nodes (.deliver hposts)
    · rw [show y.flushAllCount info.partitionId = _ from halike.count]
      exact update_eq_self k.dst (s.scene info.partitionId).count
    · rw [propext halike.closed]
      exact update_eq_self k.dst (s.scene info.partitionId).closed
    · rw [hmoving]
      show (update s.moving info.partitionId none info.partitionId).map _ = _
      rw [update_self]
      rfl

theorem Ordered.scene_join [LinearOrder K] (h : Ordered job s) (hi : s.queue[i]? = some k)
    (hr : (s.site k.dst).handle job k.dst k.wire = .ok r) {m : JoinMeta (List B)}
    (hw : k.wire = .join m) (p : Int) :
    Handoff.Inv ((put (s.taken i k r) k.dst r).scene p) := by
  have hmoving := taken_moving (s := s) i k r (p := p) (.inr fun _ _ _ => by rw [hw]; simp)
  have hnone : about p [k] = 0 := about_eq_zero fun k' hk' => by
    rw [mem_singleton.mp hk', hw]
    exact .inr rfl
  have hposts : (s.scene p).posts =
      about p ((s.taken i k r).packets ++ (s.taken i k r).delayed) := by
    refine (about_perm (packets_taken hi r)).trans ?_
    rw [← singleton_append, about_append, hnone, zero_add]
  rw [hw] at hr
  obtain ⟨y, hy, hr⟩ := bind_eq_ok.mp hr
  cases hr
  have halike : Alike p (s.site k.dst) y := .of_steady ((h.sited k.dst).act hy).2 p
  rw [scene_self (g := s.scene p) ((add_zero _).trans hposts.symm) ?_ ?_ (by rw [hmoving]; rfl)]
  · exact h.scenes p
  · rw [show y.flushAllCount p = _ from halike.count]
    exact update_eq_self k.dst (s.scene p).count
  · rw [propext halike.closed]
    exact update_eq_self k.dst (s.scene p).closed

theorem Ordered.handle [LinearOrder K] (h : Ordered job s) (hi : s.queue[i]? = some k)
    (hr : (s.site k.dst).handle job k.dst k.wire = .ok r) :
    Ordered job (put (s.taken i k r) k.dst r) := by
  have hperm := packets_taken hi r
  have hproper := h.proper k (hperm.mem_iff.mpr mem_cons_self)
  obtain ⟨hsited, hwires⟩ := (h.sited k.dst).handle hproper hr
  refine ordered_put (fun m => by rw [(taken_rest i k r).1]; exact h.sited m) hsited
    (fun k' hk' => h.proper k' (hperm.mem_iff.mpr (mem_cons_of_mem k hk')))
    (fun w hw => (hwires w hw).1) fun p => ?_
  by_cases hpk : p = k.wire.partId
  · subst hpk
    cases hw : k.wire with
    | join m => exact h.scene_join hi hr hw _
    | kStartMigrate info view => exact h.scene_start hi hr hw
    | kFlushAll info again => exact h.scene_flush hi hr hw
    | kDest info data bin => exact h.scene_dest hi hr hw
  · rw [scene_other h hi hr hpk]
    exact h.scenes p

end Handle

/-! ## Every run -/

theorem ordered_step [LinearOrder K] {e : MigrationEvent K M B} (h : Ordered job s)
    (he : s.Enabled job e) (hs : step job s e = .ok s') : Ordered job s' := by
  cases e with
  | migrate p toId =>
    cases hs
    exact h.migrate he
  | arrive i =>
    simp only [step] at hs
    split at hs
    · cases hs
      exact h
    · next k hi =>
      cases hs
      exact h.perm rfl rfl (packets_arrive hi)
  | handle i =>
    rcases step_handle hs with rfl | ⟨k, r, hi, hr, rfl⟩
    · exact h
    · exact h.handle hi hr
  | push i =>
    simp only [step] at hs
    split at hs
    · cases hs
      exact h
    · next k hi =>
      cases hs
      exact h.perm rfl rfl (packets_push hi)
  | send n key ids stream =>
    obtain ⟨r, hr, hs⟩ := bind_eq_ok.mp hs
    cases hs
    exact h.send hr _
  | act n a =>
    obtain ⟨y, hy, hs⟩ := bind_eq_ok.mp hs
    cases hs
    obtain ⟨hsited, hsteady⟩ := (h.sited n).act hy
    exact h.set hsited hsteady
  | finishLoadWith n p =>
    cases hs
    exact h.set { h.sited n with } ⟨.refl _, rfl, rfl, rfl⟩

theorem ordered_reachable [LinearOrder K] (hs : Reach (step job) (Enabled job) (init job) s) :
    Ordered job s :=
  hs.induct (P := fun s => Ordered job s) ordered_init fun _ _ _ _ h he hstep =>
    ordered_step h he hstep

end Migrating

end Tangram
