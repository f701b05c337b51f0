import Tangram.Cluster.Cluster
import Tangram.Cluster.Flow

/-!
# What messages carry and partitions hold

A join message stands for the outputs of the upstream partitions that it lists:
its payload, serialised or kept in the stream store of the node, acts on every
object as those outputs do in some order (`Carries`).  So in every state of every
run a partition holds, under every key, what the outputs of the applied messages
make of the object that was there before the plan (`contents_reachable`):

    get? k  =  seqUpdate k (initial get? k) ms,    ms ~ msgsOf k (outputs of applied)
-/

namespace Tangram

open StepRun List Function
open scoped List

variable {K M O B : Type} {x : Controller K M B} {m m' : JoinMeta (List B)} {n : Int}
  {e : PlaneEvent} {i : Nat}

/-! ## Messages -/

namespace MapJoin

/-- The outputs that a message stands for. -/
def outputs (job : MapJoin K M O B) (m : JoinMeta (List B)) : List (K × M) :=
  m.ids.flatMap fun u => outputBuffer job.mapper (job.map u m.version) m.partId

/-- The combine function does to a pair of messages what `update` does to both. -/
def CombineLaw (job : MapJoin K M O B) : Prop :=
  ∀ c ∈ job.combine, ∀ o a b, job.update (job.update o a) b = job.update o (c a b)

end MapJoin

namespace DelayedCombiner

variable (job : MapJoin K M O B)

/-- What the update function of `RunJoin` reads for a message. -/
def payload (d : DelayedCombiner K M B) (m : JoinMeta (List B)) : Option (List (K × M)) :=
  if m.localMode then d.streamStore (Controller.streamKey m) else some (job.codec.decodeAll m.bin)

def Carries [LinearOrder K] (d : DelayedCombiner K M B) (m : JoinMeta (List B)) : Prop :=
  ∃ b, d.payload job m = some b ∧ StandsFor job.update b (job.outputs m)

/-- The combiner sends messages that carry their outputs and takes no stream away. -/
structure Adds [LinearOrder K] (d d' : DelayedCombiner K M B) : Prop where
  kept : ∀ key b, d.streamStore key = some b → d'.streamStore key = some b
  sent : ∀ m ∈ d'.sent, m ∈ d.sent ∨ Carries job d' m

variable {job} [LinearOrder K] {n : Int} {d d' d'' : DelayedCombiner K M B}

theorem Carries.of_kept {m : JoinMeta (List B)} (h : Carries job d m)
    (hkept : m.localMode = true → ∀ b, d.streamStore (Controller.streamKey m) = some b →
      d'.streamStore (Controller.streamKey m) = some b) : Carries job d' m := by
  obtain ⟨b, hb, hstands⟩ := h
  refine ⟨b, ?_, hstands⟩
  unfold payload at hb ⊢
  split at hb
  · next hl =>
    rw [if_pos hl]
    exact hkept hl b hb
  · next hl =>
    rw [if_neg hl]
    exact hb

theorem Adds.carries (h : Adds job d d') (hm : Carries job d m) :
    Carries job d' m := hm.of_kept fun _ => h.kept _

theorem Adds.of_eq (hstream : d'.streamStore = d.streamStore) (hsent : d'.sent = d.sent) :
    Adds job d d' where
  kept _ _ hb := hstream ▸ hb
  sent _ hm := .inl (hsent ▸ hm)

theorem Adds.trans (h : Adds job d d') (h' : Adds job d' d'') : Adds job d d'' where
  kept key b hb := h'.kept key b (h.kept key b hb)
  sent m hm := by
    rcases h'.sent m hm with hm | hm
    · exact (h.sent m hm).imp_right h'.carries
    · exact .inr hm

/-- A stream that stands for the outputs of its upstream partitions is sent. -/
theorem adds_prepareMsgAndSend {key : Int × Int} {ids : List Int} {stream : List (K × M)}
    (hstream : StandsFor job.update stream
      (ids.flatMap fun u => outputBuffer job.mapper (job.map u key.2) key.1))
    (hd : prepareMsgAndSend job n d key ids stream = .ok d') : Adds job d d' := by
  unfold prepareMsgAndSend at hd
  split at hd
  · obtain ⟨_, hnone, hd⟩ := bind_eq_ok.mp hd
    have hnone := check_eq_ok.mp hnone
    cases hd
    refine ⟨fun k b hb => ?_, fun m hm => ?_⟩
    · have hne : k ≠ (key.1, ids, key.2) := by
        rintro rfl
        rw [hnone] at hb
        cases hb
      exact (update_of_ne hne _ _).trans hb
    · rcases mem_append.mp hm with hm | hm
      · exact .inl hm
      · rw [mem_singleton.mp hm]
        exact .inr ⟨stream, update_self _ _ _, hstream⟩
  · cases hd
    refine ⟨fun k b hb => hb, fun m hm => ?_⟩
    rcases mem_append.mp hm with hm | hm
    · exact .inl hm
    · rw [mem_singleton.mp hm]
      exact .inr ⟨stream, congrArg some (job.codec.decodeAll_encodeAll stream), hstream⟩

theorem adds_addStream {u v p : Int}
    (hd : addStream job n d u v p (outputBuffer job.mapper (job.map u v) p) = .ok d') :
    Adds job d d' := by
  unfold addStream at hd
  split at hd
  · refine adds_prepareMsgAndSend ?_ hd
    rw [flatMap_singleton]
    exact .refl _
  · split at hd
    · cases hd
      exact .of_eq rfl rfl
    · simp only at hd
      split at hd <;> cases Except.ok.inj hd <;> exact .of_eq rfl rfl

theorem adds_addMapOutput {u v : Int} (hd : addMapOutput job n d u v = .ok d') :
    Adds job d d' := by
  refine foldlM_induct (P := Adds job d) job.updateParts (.of_eq rfl rfl)
    (fun d₁ p d₂ _ h₁ h₂ => ?_) hd
  exact h₁.trans (adds_addStream h₂)

theorem adds_runTask (hc : job.CombineLaw) (hout : Outgoing job n d)
    (hd : runTask job n d i = .ok d') : Adds job d d' := by
  unfold runTask at hd
  split at hd
  · cases hd
    exact .of_eq rfl rfl
  · next task hi =>
    have hbatch := hout.executor task (mem_of_getElem? hi)
    unfold combineSerializeSend at hd
    obtain ⟨_, -, hd⟩ := bind_eq_ok.mp hd
    have hflat : task.2.flatMap Prod.snd = (task.2.map Prod.fst).flatMap
        fun u => outputBuffer job.mapper (job.map u task.1.2) task.1.1 := by
      rw [flatMap_map]
      exact flatMap_congr fun x hx => (hbatch.items x hx).stream
    have hsent := adds_prepareMsgAndSend (hflat ▸ StandsFor.combine job.sort_perm hc _) hd
    exact ⟨hsent.kept, hsent.sent⟩

theorem adds_periodicCombine : Adds job d (d.periodicCombine job) := by
  unfold periodicCombine
  split
  · exact .of_eq rfl rfl
  · exact .of_eq rfl rfl

end DelayedCombiner

/-! ## What is applied -/

namespace PlanController

variable {β : Type} {c : Spec} {s s' : PlanController β}

theorem applied_step {a : Action β} (h : step c s a = .ok s') (ha : ∀ i, a ≠ .execFetch i) :
    s'.applied = s.applied := by
  refine step_induct (P := fun t => t.applied = s.applied) h (fun s₁ hh => ?_) fun t u ht hu => ?_
  · cases hh with
    | execJoin i m hi => exact absurd rfl (ha i)
    | _ => rfl
  · cases hu <;> exact ht

/-- A join task has run. -/
theorem applied_execFetch {m : JoinMeta β} (h : execFetch c s i = .ok s')
    (hi : s.fetchExecutor[i]? = some (.join m)) : s'.applied = s.applied ++ [m] := by
  unfold execFetch at h
  rw [hi] at h
  obtain ⟨_, -, h⟩ := bind_eq_ok.mp h
  cases h
  rfl

/-- Another task has run. -/
theorem applied_execOther (h : execFetch c s i = .ok s')
    (hi : ∀ m, s.fetchExecutor[i]? ≠ some (.join m)) : s'.applied = s.applied := by
  have hh := execFetch_head h
  clear h
  cases hh with
  | execJoin i m hj => exact absurd hj (hi m)
  | _ => rfl

/-- What runs is not applied yet, if every output was received once. -/
theorem not_applied_of_running (hs : Sound c s) (ha : Arrivals c s) {m : JoinMeta β}
    (hids : m.ids ≠ []) (hm : m ∈ s.runningJoins) : m ∉ s.applied := by
  intro happ
  obtain ⟨u, hu⟩ := exists_mem_of_ne_nil _ hids
  have hcov : m.Covers m.partId m.version u := ⟨⟨rfl, rfl⟩, hu⟩
  have hk := hs.kept m.partId m.version (fun m' => m'.Covers m.partId m.version u)
    fun m' hm' => (of_decide_eq_true hm').1
  have h₁ : 0 < s.runningJoins.countP (fun m' => m'.Covers m.partId m.version u) :=
    countP_pos_iff.mpr ⟨m, hm, by simpa using hcov⟩
  have h₂ : 0 < s.applied.countP (fun m' => m'.Covers m.partId m.version u) :=
    countP_pos_iff.mpr ⟨m, happ, by simpa using hcov⟩
  have hone := ha.once m.partId m.version u
  unfold Kept at hk
  omega

/-- Two messages of one controller do not share an output. -/
theorem Arrivals.eq_of_covers (ha : Arrivals c s) {m m' : JoinMeta β} (hm : m ∈ s.received)
    (hm' : m' ∈ s.received) {p v u : Int} (hc : m.Covers p v u) (hc' : m'.Covers p v u) :
    m = m' := by
  by_contra hne
  obtain ⟨i, hi⟩ := getElem?_of_mem hm
  have hperm := perm_cons_of_getElem? hi
  have hrest : m' ∈ s.received.eraseIdx i := by
    rcases mem_cons.mp (hperm.mem_iff.mp hm') with rfl | h
    · exact absurd rfl hne
    · exact h
  have hpos : 0 < (s.received.eraseIdx i).countP (·.Covers p v u) :=
    countP_pos_iff.mpr ⟨m', hrest, by simpa using hc'⟩
  have hone := ha.once p v u
  rw [hperm.countP_eq, countP_cons, if_pos (by simpa using hc)] at hone
  omega

end PlanController

namespace ControlPlane

open PlanController DelayedCombiner

variable {job : MapJoin K M O B} {s s' : ControlPlane K M B} {a : PlanController.Action (List B)}

/-! ## Where received messages come from -/

/-- A step of a controller receives the message that is delivered, or nothing. -/
theorem mem_received_step (h : Flow job s) {pc : PlanController (List B)}
    (hstep : PlanController.step (job.spec n) (s.controller n).pc a = .ok pc)
    {m : JoinMeta (List B)} (hm : m ∈ pc.received) :
    m ∈ (s.controller n).pc.received ∨ a = .kReceiveJoin m := by
  rw [received_step (h.sound n).layout hstep] at hm
  rcases mem_append.mp hm with hm | hm
  · exact .inl hm
  · obtain ⟨a', ha', hm⟩ := mem_filterMap.mp hm
    rw [mem_singleton.mp ha'] at hm
    cases a with
    | kReceiveJoin m' =>
      simp only at hm
      split at hm
      · cases hm
        exact .inr rfl
      · cases hm
    | _ => cases hm

/-- Every message that arrived was sent by a node, to the node of its partition. -/
def Known (job : MapJoin K M O B) (s : ControlPlane K M B) : Prop :=
  ∀ n m, m ∈ (s.controller n).pc.received ∨ m ∈ (s.controller n).dropped →
    job.owner m.partId = n ∧ ∃ k, DelayedCombiner.Sent job k m

theorem known_init : Known job (init job : ControlPlane K M B) := by
  rintro n m (hm | hm) <;> cases hm

theorem Known.set (h : Known job s) {n : Int} {x : Controller K M B}
    (hx : ∀ m, m ∈ x.pc.received ∨ m ∈ x.dropped → job.owner m.partId = n ∧ ∃ k, DelayedCombiner.Sent job k m) :
    Known job (s.set n x) := by
  intro k m hm
  rw [set_controller] at hm
  split at hm
  · next hk => exact hk ▸ hx m hm
  · exact h k m hm

/-- A controller goes on without a message. -/
theorem Known.step (h : Known job s) (hF : Flow job s) (ha : ∀ m, a ≠ .kReceiveJoin m)
    (hstep : PlanController.step (job.spec n) (s.controller n).pc a = .ok x.pc)
    (hdrop : x.dropped = (s.controller n).dropped) : Known job (s.set n x) := by
  refine h.set fun m hm => h n m ?_
  rw [received_eq (hF.sound n).layout hstep ha, hdrop] at hm
  exact hm

theorem known_move [LinearOrder K] (hF : Flow job s) (h : Known job s) (hm : Move job s e s') :
    Known job s' := by
  cases hm with
  | stay => exact h
  | act n hn e a ha x hx hstream hstep => exact h.step hF ha.ne_receive hstep hx.dropped
  | ignore n hn b hb hig => exact h.set (h n)
  | start n hn hb pc hstep => exact h.step hF (a := .kStart) (by simp) hstep rfl
  | announce n hn v hb pc hstep => exact h.step hF (a := .kUpdateVersion v) (by simp) hstep rfl
  | terminate n hn hb => exact h.set (h n)
  | tell n hn r hr sched hstep =>
    exact h.set (x := { s.controller n with told := (s.controller n).told + 1 }) (h n)
  | deliver n hn i m hi hend pc hstep =>
    have h₁ : Known job (s.set n ((s.controller n).takeSent i)) := h.set (h n)
    refine h₁.set fun m' hm' => ?_
    obtain ⟨hpc, -, hdrop, -⟩ := set_takeSent_pc s n (job.owner m.partId) i
    rcases hm' with hm' | hm'
    · rcases mem_received_step hF hstep hm' with hold | hnew
      · exact h _ m' (.inl hold)
      · cases hnew
        exact ⟨rfl, n, (hF.out n).sent m (mem_of_getElem? hi)⟩
    · exact h _ m' (.inr (hdrop ▸ hm'))
  | drop n hn i m hi hend =>
    have h₁ : Known job (s.set n ((s.controller n).takeSent i)) := h.set (h n)
    refine h₁.set fun m' hm' => ?_
    obtain ⟨hpc, -, hdrop, -⟩ := set_takeSent_pc s n (job.owner m.partId) i
    rcases hm' with hm' | hm'
    · exact h _ m' (.inl (hpc ▸ hm'))
    · rcases mem_append.mp hm' with hm' | hm'
      · exact h _ m' (.inr hm')
      · rw [mem_singleton.mp hm']
        exact ⟨rfl, n, (hF.out n).sent m (mem_of_getElem? hi)⟩
  | combine n hn i d hd => exact h.set (h n)
  | periodicCombine n hn => exact h.set (h n)
  | endMap n hn i t hi hs d hd hstop => exact h.step hF (a := .endMap i) (by simp) rfl rfl
  | endNoMap n hn i hnone => exact h.step hF (a := .endMap i) (by simp) rfl rfl

/-! ## The messages of a controller carry their outputs -/

/-- What is sent and what is not applied yet. -/
structure Stocked [LinearOrder K] (job : MapJoin K M O B) (x : Controller K M B) : Prop where
  sent : ∀ m ∈ x.combiner.sent, Carries job x.combiner m
  received : ∀ m ∈ x.pc.received, m ∉ x.pc.applied → Carries job x.combiner m

section Stocked

variable [LinearOrder K]

theorem stocked_set {x : Controller K M B} (h : ∀ k, Stocked job (s.controller k))
    (hx : Stocked job x) (k : Int) : Stocked job ((s.set n x).controller k) := by
  rw [set_controller]
  split
  · exact hx
  · exact h k

theorem Stocked.adds (h : Stocked job x) {x' : Controller K M B}
    (hadds : Adds job x.combiner x'.combiner) (hrec : x'.pc.received = x.pc.received)
    (happ : x'.pc.applied = x.pc.applied) : Stocked job x' where
  sent m hm := by
    rcases hadds.sent m hm with hm | hm
    · exact hadds.carries (h.sent m hm)
    · exact hm
  received m hm hnot := hadds.carries (h.received m (hrec ▸ hm) (happ ▸ hnot))

/-- A controller goes on without a message and runs no task. -/
theorem Stocked.step (h : Stocked job (s.controller n)) (hF : Flow job s)
    (ha : ∀ m, a ≠ .kReceiveJoin m) (hx : ∀ i, a ≠ .execFetch i)
    (hstep : PlanController.step (job.spec n) (s.controller n).pc a = .ok x.pc)
    (hadds : Adds job (s.controller n).combiner x.combiner) : Stocked job x :=
  h.adds hadds (received_eq (hF.sound n).layout hstep ha) (applied_step hstep hx)

theorem Stocked.takeSent (h : Stocked job x) (i : Nat) :
    Stocked job (x.takeSent i) where
  sent m hm := (h.sent m (mem_of_mem_eraseIdx hm)).of_kept fun _ _ hb => hb
  received m hm hnot := (h.received m hm hnot).of_kept fun _ _ hb => hb

theorem Quiet.ne_execFetch {β : Type} {a : PlanController.Action β} (ha : Quiet e a)
    (he : ∀ i, e ≠ .execFetch i) (i : Nat) : a ≠ .execFetch i := by
  rintro rfl
  cases e with
  | execFetch j => exact he j rfl
  | _ => exact ha

theorem stocked_move (hc : job.CombineLaw) (hF : Flow job s) (h : ∀ k, Stocked job (s.controller k))
    (hm : Move job s e s') (he : ∀ i, e ≠ .execFetch i) (k : Int) :
    Stocked job (s'.controller k) := by
  have hsame : ∀ {x x' : Controller K M B}, Stocked job x → x'.combiner = x.combiner →
      x'.pc = x.pc → Stocked job x' := fun hx hcomb hpc =>
    hx.adds (.of_eq (congrArg _ hcomb) (congrArg _ hcomb)) (congrArg _ hpc) (congrArg _ hpc)
  cases hm with
  | stay => exact h k
  | act n hn e a ha x hx hstream hstep =>
    refine stocked_set h ?_ k
    exact (h n).step hF ha.ne_receive (ha.ne_execFetch he) hstep (.of_eq (hstream he) hx.sent)
  | ignore n hn b hb hig =>
    refine stocked_set h ?_ k
    exact hsame (h n) rfl rfl
  | start n hn hb pc hstep =>
    refine stocked_set h ?_ k
    exact (h n).step hF (a := .kStart) (by simp) (by simp) hstep (.of_eq rfl rfl)
  | announce n hn v hb pc hstep =>
    refine stocked_set h ?_ k
    exact (h n).step hF (a := .kUpdateVersion v) (by simp) (by simp) hstep (.of_eq rfl rfl)
  | terminate n hn hb =>
    refine stocked_set h ?_ k
    exact hsame (h n) rfl rfl
  | tell n hn r hr sched hstep =>
    refine stocked_set (x := { s.controller n with told := (s.controller n).told + 1 }) h ?_ k
    exact hsame (h n) rfl rfl
  | deliver n hn i m hi hend pc hstep =>
    have h₁ := stocked_set (n := n) h ((h n).takeSent i)
    refine stocked_set h₁ ?_ k
    refine ⟨(h₁ (job.owner m.partId)).sent, fun m' hm' hnot => ?_⟩
    obtain ⟨hpc, -, -, -⟩ := set_takeSent_pc s n (job.owner m.partId) i
    rcases mem_received_step hF hstep hm' with hold | hnew
    · refine (h₁ (job.owner m.partId)).received m' (hpc ▸ hold) ?_
      rw [hpc, ← applied_step hstep (by simp)]
      exact hnot
    · cases hnew
      -- a message in local mode stays on its node, where its stream is
      refine ((h n).sent m (mem_of_getElem? hi)).of_kept fun hlocal b hb => ?_
      have hown : job.owner m.partId = n := of_decide_eq_true
        (((hF.out n).sent m (mem_of_getElem? hi)).localMode.symm.trans hlocal)
      rw [hown, set_controller_self]
      exact hb
  | drop n hn i m hi hend =>
    have h₁ := stocked_set (n := n) h ((h n).takeSent i)
    refine stocked_set h₁ ?_ k
    exact hsame (h₁ (job.owner m.partId)) rfl rfl
  | combine n hn i d hd =>
    refine stocked_set h ?_ k
    exact (h n).adds (adds_runTask hc (hF.out n) hd) rfl rfl
  | periodicCombine n hn =>
    refine stocked_set h ?_ k
    exact (h n).adds adds_periodicCombine rfl rfl
  | endMap n hn i t hi hs d hd hstop =>
    refine stocked_set h ?_ k
    exact (h n).step hF (a := .endMap i) (by simp) (by simp) rfl (adds_addMapOutput hd)
  | endNoMap n hn i hnone =>
    refine stocked_set h ?_ k
    exact (h n).step hF (a := .endMap i) (by simp) (by simp) rfl (.of_eq rfl rfl)

end Stocked

/-! ## A task runs -/

section Exec

variable {n : Int} {i : Nat} {x x' : Controller K M B}

/-- An update takes its stream out of the store. -/
theorem execFetch_join (hl : Layout (job.spec n) x.pc) (h : x.execFetch job n i = .ok x')
    (hi : x.pc.fetchExecutor[i]? = some (.join m)) :
    x'.pc.received = x.pc.received ∧ x'.pc.applied = x.pc.applied ++ [m] ∧
      x'.combiner.sent = x.combiner.sent ∧ ∀ key, key ≠ Controller.streamKey m →
        x'.combiner.streamStore key = x.combiner.streamStore key := by
  unfold Controller.execFetch Controller.takeTaskStream at h
  rw [hi] at h
  obtain ⟨x₁, h₁, h⟩ := bind_eq_ok.mp h
  have h₁ : x.takeStream m = .ok x₁ := h₁
  obtain ⟨pc, hstep, rfl⟩ := act_eq_ok h
  obtain ⟨hpc, hout⟩ := takeStream_eq_ok h₁
  rw [hpc] at hstep
  refine ⟨received_eq hl hstep (by simp), applied_execFetch hstep hi, hout.sent,
    fun key hne => ?_⟩
  unfold Controller.takeStream at h₁
  split at h₁
  · obtain ⟨_, -, h₁⟩ := bind_eq_ok.mp h₁
    cases h₁
    exact update_of_ne hne _ _
  · cases h₁
    rfl

theorem execFetch_other (hl : Layout (job.spec n) x.pc) (h : x.execFetch job n i = .ok x')
    (hi : ∀ m, x.pc.fetchExecutor[i]? ≠ some (.join m)) :
    x'.pc.received = x.pc.received ∧ x'.pc.applied = x.pc.applied ∧ x'.combiner = x.combiner := by
  unfold Controller.execFetch Controller.takeTaskStream at h
  split at h
  · next m hm => exact absurd hm (hi m)
  · obtain ⟨x₁, h₁, h⟩ := bind_eq_ok.mp h
    cases h₁
    obtain ⟨pc, hstep, rfl⟩ := act_eq_ok h
    exact ⟨received_eq hl hstep (by simp), applied_execOther hstep hi, rfl⟩

/-- The stream of a running update is not that of any other message. -/
theorem Flow.streamKey_ne_sent (h : Flow job s) (hK : Known job s)
    (hm : m ∈ (s.controller n).pc.received) (hm' : m' ∈ (s.controller n).combiner.sent) :
    Controller.streamKey m' ≠ Controller.streamKey m := by
  intro hkey
  obtain ⟨hpart, hids, hver⟩ : m'.partId = m.partId ∧ m'.ids = m.ids ∧ m'.version = m.version := by
    simpa [Controller.streamKey] using hkey
  obtain ⟨hown, -, -⟩ := hK n m (.inl hm)
  have hsent := (h.out n).sent m' hm'
  obtain ⟨u, hu⟩ := exists_mem_of_ne_nil _ hsent.ids
  obtain ⟨hmap, hhome⟩ := hsent.upstream u hu
  have hone := h.inSystem_le_one (w := m'.version) hsent.part hmap
  have h₁ : 0 < tokensIn (s.controller n).combiner.sent m'.partId m'.version u :=
    tokensIn_pos.mpr ⟨m', hm', ⟨rfl, rfl⟩, hu⟩
  have h₂ : 0 < tokensIn (s.controller n).pc.received m'.partId m'.version u :=
    tokensIn_pos.mpr ⟨m, hm, ⟨hpart.symm, hver.symm⟩, hids ▸ hu⟩
  unfold inSystem carried at hone
  rw [hhome, hpart, hown, ← hpart] at hone
  omega

theorem Flow.streamKey_ne_received (h : Flow job s) (hK : Known job s) {m m' : JoinMeta (List B)}
    (hm : m ∈ (s.controller n).pc.received) (hm' : m' ∈ (s.controller n).pc.received)
    (hne : m' ≠ m) : Controller.streamKey m' ≠ Controller.streamKey m := by
  intro hkey
  obtain ⟨hpart, hids, hver⟩ : m'.partId = m.partId ∧ m'.ids = m.ids ∧ m'.version = m.version := by
    simpa [Controller.streamKey] using hkey
  obtain ⟨-, k, hsent⟩ := hK n m (.inl hm)
  obtain ⟨u, hu⟩ := exists_mem_of_ne_nil _ hsent.ids
  exact hne ((h.arrivals n).eq_of_covers hm' hm ⟨⟨hpart, hver⟩, hids ▸ hu⟩ ⟨⟨rfl, rfl⟩, hu⟩)

/-- The message of a running update carries its outputs. -/
theorem Stocked.running [LinearOrder K] (hx : Stocked job (s.controller n)) (h : Flow job s)
    (hK : Known job s) (hi : (s.controller n).pc.fetchExecutor[i]? = some (.join m)) :
    m ∈ (s.controller n).pc.received ∧ Carries job (s.controller n).combiner m := by
  have hrun : m ∈ (s.controller n).pc.runningJoins :=
    mem_filterMap.mpr ⟨_, mem_of_getElem? hi, rfl⟩
  have hrec := mem_received (h.sound n) (.inr (.inr (.inl hrun)))
  obtain ⟨-, k, hsent⟩ := hK n m (.inl hrec)
  exact ⟨hrec, hx.received m hrec
    (not_applied_of_running (h.sound n) (h.arrivals n) hsent.ids hrun)⟩

theorem Stocked.execFetch [LinearOrder K] (hx : Stocked job (s.controller n)) (h : Flow job s)
    (hK : Known job s) (hexec : (s.controller n).execFetch job n i = .ok x) : Stocked job x := by
  by_cases hi : ∃ m, (s.controller n).pc.fetchExecutor[i]? = some (.join m)
  · obtain ⟨m, hi⟩ := hi
    obtain ⟨hrec, happ, hsent, hstream⟩ := execFetch_join (h.sound n).layout hexec hi
    obtain ⟨hm, -⟩ := hx.running h hK hi
    refine ⟨fun m' hm' => ?_, fun m' hm' hnot => ?_⟩
    · rw [hsent] at hm'
      refine (hx.sent m' hm').of_kept fun _ b hb => ?_
      rw [hstream _ (h.streamKey_ne_sent hK hm hm')]
      exact hb
    · rw [hrec] at hm'
      rw [happ] at hnot
      refine (hx.received m' hm' fun ha => hnot (mem_append_left _ ha)).of_kept
        fun _ b hb => ?_
      have hne : m' ≠ m := by
        rintro rfl
        exact hnot (mem_append_right _ mem_cons_self)
      rw [hstream _ (h.streamKey_ne_received hK hm hm' hne)]
      exact hb
  · have hi : ∀ m, (s.controller n).pc.fetchExecutor[i]? ≠ some (.join m) :=
      fun m hm => hi ⟨m, hm⟩
    obtain ⟨hrec, happ, hcomb⟩ := execFetch_other (h.sound n).layout hexec hi
    exact hx.adds (.of_eq (congrArg _ hcomb) (congrArg _ hcomb)) hrec happ

end Exec

end ControlPlane

/-! ## Whole versions -/

/-- The outputs that a message lists, as pairs of version and upstream partition. -/
def JoinMeta.listed {β : Type} (m : JoinMeta β) : List (Int × Int) :=
  m.ids.map fun u => (m.version, u)

theorem count_listed {β : Type} {ms : List (JoinMeta β)} {p : Int} (hp : ∀ m ∈ ms, m.partId = p)
    (w u : Int) : (ms.flatMap JoinMeta.listed).count (w, u) = tokensIn ms p w u := by
  induction ms with
  | nil => rfl
  | cons m ms ih =>
    rw [flatMap_cons, count_append, ih fun m' hm' => hp m' (mem_cons_of_mem _ hm'),
      tokensIn_cons, hp m mem_cons_self]
    congr 1
    by_cases hw : m.version = w
    · subst hw
      rw [if_pos rfl, JoinMeta.listed]
      exact count_map_of_injective _ _ (fun _ _ he => (Prod.mk.inj he).2) _
    · rw [if_neg fun he => hw (Prod.mk.inj he).2, count_eq_zero]
      intro hmem
      obtain ⟨x, -, hx⟩ := mem_map.mp hmem
      exact hw (Prod.mk.inj hx).1

namespace MapJoin

variable (job : MapJoin K M O B)

/-- The maps of the versions below `v`. -/
def mapsBelow (v : Int) : List (Int × Int) :=
  ((List.range v.toNat).map fun w : Nat => (w : Int)).product job.mapParts

/-- What these emit for partition `p`. -/
def emittedBelow (p v : Int) : List (K × M) :=
  (job.mapsBelow v).flatMap fun x => outputBuffer job.mapper (job.map x.2 x.1) p

variable {job}

theorem count_mapsBelow (v w u : Int) : (job.mapsBelow v).count (w, u) =
    if 0 ≤ w ∧ w < v ∧ u ∈ job.mapParts then 1 else 0 := by
  have hmem : (w, u) ∈ job.mapsBelow v ↔ 0 ≤ w ∧ w < v ∧ u ∈ job.mapParts := by
    have hw : w ∈ (List.range v.toNat).map (fun w : Nat => (w : Int)) ↔ 0 ≤ w ∧ w < v := by
      simp only [mem_map, mem_range]
      constructor
      · rintro ⟨x, hx, rfl⟩
        omega
      · rintro ⟨h0, hlt⟩
        exact ⟨w.toNat, by omega, by omega⟩
    rw [mapsBelow, pair_mem_product, hw, and_assoc]
  have hnodup : (job.mapsBelow v).Nodup :=
    (nodup_range.map fun _ _ he => Int.ofNat.inj he).product (partsOf_nodup _)
  split_ifs with h
  · exact count_eq_one_of_mem hnodup (hmem.mpr h)
  · exact count_eq_zero_of_not_mem (mt hmem.mp h)

/-- Messages that list every map of the versions below `v` once carry what these emit. -/
theorem outputs_perm {p v : Int} {ms : List (JoinMeta (List B))} (hp : ∀ m ∈ ms, m.partId = p)
    (h : ∀ w u, tokensIn ms p w u = if 0 ≤ w ∧ w < v ∧ u ∈ job.mapParts then 1 else 0) :
    ms.flatMap job.outputs ~ job.emittedBelow p v := by
  have hlist : ms.flatMap JoinMeta.listed ~ job.mapsBelow v := by
    rw [perm_iff_count]
    rintro ⟨w, u⟩
    rw [count_listed hp, h, count_mapsBelow]
  have hout : ms.flatMap job.outputs = (ms.flatMap JoinMeta.listed).flatMap
      fun x => outputBuffer job.mapper (job.map x.2 x.1) p := by
    rw [flatMap_assoc]
    refine flatMap_congr fun m hm => ?_
    rw [JoinMeta.listed, flatMap_map, outputs, hp m hm]
  rw [hout]
  exact hlist.flatMap_right _

end MapJoin

/-! ## Partitions -/

namespace Cluster

open ControlPlane PlanController DelayedCombiner IndexedSeqPartition

variable [LinearOrder K] {job : MapJoin K M O B} {s s' : Cluster K M O B}

/-- Partition `p` after the outputs `out`, in some order. -/
def Holds (job : MapJoin K M O B) (p : Int) (part : IndexedSeqPartition K O)
    (out : List (K × M)) : Prop :=
  Unsorted part ∧ ∀ k, ∃ ms, ms ~ msgsOf k out ∧
    part.get? job.obj k = seqUpdate job.obj job.update k ((job.initial p).get? job.obj k) ms

theorem Holds.joinStream {p : Int} {part : IndexedSeqPartition K O} {out orig b : List (K × M)}
    (h : Holds job p part out) (hb : StandsFor job.update b orig) :
    Holds job p (part.joinStream job.obj job.update b) (out ++ orig) := by
  obtain ⟨hU, hget⟩ : Unsorted (part.joinStream job.obj job.update b) ∧
      ∀ k, get? job.obj (part.joinStream job.obj job.update b) k =
        seqUpdate job.obj job.update k (part.get? job.obj k) (msgsOf k b) := h.1.joinStream b
  refine ⟨hU, fun k => ?_⟩
  obtain ⟨ms, hms, hold⟩ := h.2 k
  obtain ⟨ms', hms', hnil, hfold⟩ := hb k
  refine ⟨ms ++ ms', ?_, ?_⟩
  · rw [msgsOf_append]
    exact hms.append hms'
  · rw [hget, hold, seqUpdate_append]
    exact seqUpdate_congr hnil hfold

theorem Holds.perm {p : Int} {part : IndexedSeqPartition K O} {out out' : List (K × M)}
    (h : Holds job p part out) (hp : out ~ out') : Holds job p part out' := by
  refine ⟨h.1, fun k => ?_⟩
  obtain ⟨ms, hms, hget⟩ := h.2 k
  exact ⟨ms, hms.trans (hp.filterMap _), hget⟩

/-- The messages that were applied to `p`. -/
def appliedTo (x : Controller K M B) (p : Int) : List (JoinMeta (List B)) :=
  x.pc.applied.filter (·.partId = p)

omit [LinearOrder K] in
theorem tokensIn_appliedTo (x : Controller K M B) (p w u : Int) :
    tokensIn (appliedTo x p) p w u = tokensIn x.pc.applied p w u :=
  tokensIn_filter fun _ _ hat => decide_eq_true hat.1

/-- **Contents** of the cluster. -/
structure Contents (job : MapJoin K M O B) (s : Cluster K M O B) : Prop where
  known : ControlPlane.Known job s.toControlPlane
  stocked : ∀ n, Stocked job (s.controller n)
  holds : ∀ n p, Holds job p (s.partitions n p) ((appliedTo (s.controller n) p).flatMap job.outputs)

theorem contents_init (hU : ∀ p, Unsorted (job.initial p)) : Contents job (init job) where
  known := known_init
  stocked n := ⟨fun m hm => (by cases hm), fun m hm => (by cases hm)⟩
  holds n p := ⟨hU p, fun k => ⟨[], List.Perm.refl _, rfl⟩⟩

theorem applied_move {t t' : ControlPlane K M B} (hm : ControlPlane.Move job t e t')
    (he : ∀ i, e ≠ .execFetch i) (n : Int) :
    (t'.controller n).pc.applied = (t.controller n).pc.applied := by
  rcases move_pc hm n with hpc | ⟨a, hstep, -, -, hexec⟩
  · rw [hpc]
  · exact applied_step hstep fun i hi => he i (hexec i hi)

/-- The control plane moves and no update is applied. -/
theorem Contents.plane (hc : job.CombineLaw) (hF : Flow job s.toControlPlane) (h : Contents job s)
    (hm : ControlPlane.Move job s.toControlPlane e s'.toControlPlane) (he : ∀ i, e ≠ .execFetch i)
    (hp : s'.partitions = s.partitions) : Contents job s' where
  known := known_move hF h.known hm
  stocked := stocked_move hc hF h.stocked hm he
  holds n p := by
    rw [hp, appliedTo, applied_move hm he]
    exact h.holds n p

theorem applyJoin_eq {b : List (K × M)} (hb : (s.controller n).combiner.payload job m = some b) :
    applyJoin job s n m = (s.partitions n m.partId).joinStream job.obj job.update b := by
  unfold payload at hb
  simp only [applyJoin]
  split at hb
  · next hl => rw [if_pos hl, hb]
  · next hl =>
    rw [if_neg hl, ← Option.some.inj hb]
    rfl

theorem runJoinTask_other (hi : ∀ m, (s.controller n).pc.fetchExecutor[i]? ≠ some (.join m)) :
    runJoinTask job s n i = s.partitions := by
  unfold runJoinTask
  split
  · next m hm => exact absurd hm (hi m)
  · rfl

theorem runJoinTask_ne {n k : Int} (hk : k ≠ n) (i : Nat) :
    runJoinTask job s n i k = s.partitions k := by
  by_cases hi : ∃ m, (s.controller n).pc.fetchExecutor[i]? = some (.join m)
  · obtain ⟨m, hi⟩ := hi
    simp only [runJoinTask, hi]
    exact update_of_ne hk _ _
  · rw [runJoinTask_other fun m hm => hi ⟨m, hm⟩]

/-- An update is applied to its partition; the others are as they were. -/
theorem Contents.runJoinTask (h : Contents job s) (hF : Flow job s.toControlPlane)
    (hexec : (s.controller n).execFetch job n i = .ok x) (p : Int) :
    Holds job p (runJoinTask job s n i n p) ((appliedTo x p).flatMap job.outputs) := by
  unfold appliedTo
  by_cases hi : ∃ m, (s.controller n).pc.fetchExecutor[i]? = some (.join m)
  · obtain ⟨m, hi⟩ := hi
    obtain ⟨-, happ, -, -⟩ := execFetch_join (hF.sound n).layout hexec hi
    obtain ⟨-, b, hb, hstands⟩ := (h.stocked n).running hF h.known hi
    simp only [Cluster.runJoinTask, hi, update_self]
    rw [happ, filter_append]
    by_cases hp : p = m.partId
    · subst hp
      have hone : [m].filter (fun m' => m'.partId = m.partId) = [m] := by simp
      rw [update_self, applyJoin_eq hb, hone, flatMap_append, flatMap_singleton]
      exact (h.holds n m.partId).joinStream hstands
    · have hnone : [m].filter (fun m' => m'.partId = p) = [] := by simpa using Ne.symm hp
      rw [update_of_ne hp, hnone, append_nil]
      exact h.holds n p
  · have hi : ∀ m, (s.controller n).pc.fetchExecutor[i]? ≠ some (.join m) :=
      fun m hm => hi ⟨m, hm⟩
    obtain ⟨-, happ, -⟩ := execFetch_other (hF.sound n).layout hexec hi
    rw [happ, runJoinTask_other hi]
    exact h.holds n p

theorem contents_move (hc : job.CombineLaw) (hF : Flow job s.toControlPlane)
    (h : Contents job s) (hm : Move job s s') : Contents job s' := by
  cases hm with
  | plane n e he hx plane hp => exact h.plane hc hF (ControlPlane.step_move hp) hx rfl
  | execFetch n hn i x hx =>
    refine ⟨known_move hF h.known
      (ControlPlane.step_move ((step_execFetch hn).mpr ⟨x, hx, rfl⟩)), fun k => ?_, fun k p => ?_⟩
    · exact stocked_set h.stocked ((h.stocked n).execFetch hF h.known hx) k
    · show Holds job p (Cluster.runJoinTask job s n i k p)
        ((appliedTo ((s.toControlPlane.set n x).controller k) p).flatMap job.outputs)
      by_cases hk : k = n
      · subst hk
        rw [set_controller_self]
        exact h.runJoinTask hF hx p
      · rw [set_controller_ne _ _ hk, runJoinTask_ne hk]
        exact h.holds k p
  | requestPart n p i m hi plane hp =>
    exact h.plane hc hF (ControlPlane.step_move hp) (by simp) rfl
  | requestObjs n p u plane hp => exact h.plane hc hF (ControlPlane.step_move hp) (by simp) rfl
  | finishFetch n p i released plane hp =>
    exact h.plane hc hF (ControlPlane.step_move hp) (by simp) rfl
  | _ => exact ⟨h.known, h.stocked, h.holds⟩

/-- In every state of every run, a partition holds what the applied messages made of it. -/
theorem contents_reachable (hc : job.CombineLaw) (hU : ∀ p, Unsorted (job.initial p))
    (hs : Reachable job s) : Contents job s := by
  refine (hs.induct (P := fun s => Flow job s.toControlPlane ∧ Contents job s)
    ⟨flow_init, contents_init hU⟩ fun s s' h hm => ⟨?_, contents_move hc h.1 h.2 hm⟩).2
  rcases move_plane hm with heq | ⟨a, hstep⟩
  · rw [heq]
    exact h.1
  · exact flow_move h.1 (ControlPlane.step_move hstep)

end Cluster

end Tangram
