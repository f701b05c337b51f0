import Tangram.Storage.Checkpointing

/-!
# What a checkpoint holds

With a staleness the updates of later versions may be applied before the version
of a checkpoint is complete, and then the checkpoint holds them.  If every update
runs only when no checkpoint of its partition is due before its version, then
checkpoint `k` holds the outputs of all maps of the versions below `k * ci`, each
once, and nothing else (`consistent_cut`).  Without staleness that is always so.
-/

namespace Tangram

open StepRun List
open scoped List

variable {K M O B : Type}

namespace Checkpointing

open ControlPlane PlanController IndexedSeqPartition Cluster

/-- The version at which the last checkpoint up to version `v` is due. -/
def dueAt (job : MapJoin K M O B) (v : Int) : Int :=
  v / job.checkpointInterval * job.checkpointInterval

/-- An update runs when no checkpoint of its partition is due between the present version of the
partition and the version of the update. -/
def OnTime (job : MapJoin K M O B) (s : Checkpointing K M O B) : Int × CheckpointEvent → Prop
  | (n, .cluster (.plane (.execFetch i))) =>
    ∀ m ∈ (s.controller n).pc.fetchExecutor[i]?.bind FetchTask.join?,
      dueAt job m.version ≤ (s.controller n).pc.updateVersions.val m.partId
  | _ => True

instance (job : MapJoin K M O B) (s : Checkpointing K M O B) (a : Int × CheckpointEvent) :
    Decidable (OnTime job s a) := by
  unfold OnTime; split <;> infer_instance

/-- Without staleness there is no condition. -/
def InStep (job : MapJoin K M O B) (s : Checkpointing K M O B) (a : Int × CheckpointEvent) : Prop :=
  job.staleness = 0 ∨ OnTime job s a

instance (job : MapJoin K M O B) (s : Checkpointing K M O B) (a : Int × CheckpointEvent) :
    Decidable (InStep job s a) := by
  unfold InStep; infer_instance

variable {t : ControlPlane K M B} {a : Int × ClusterEvent}

section Punctual

variable {job : MapJoin K M O B} {s s' : Checkpointing K M O B}

/-- No update was applied before the checkpoints that it has to come after. -/
def Punctual (job : MapJoin K M O B) (s : ControlPlane K M B) : Prop :=
  ∀ n, ∀ m ∈ (s.controller n).pc.applied,
    dueAt job m.version ≤ (s.controller n).pc.updateVersions.val m.partId

theorem dueAt_le (hci : 1 ≤ job.checkpointInterval) (v : Int) : dueAt job v ≤ v :=
  Int.ediv_mul_le v (by omega)

/-- An update that comes before version `k * ci` is one of a version below it. -/
theorem lt_of_dueAt_lt (hci : 1 ≤ job.checkpointInterval) {v k : Int}
    (h : dueAt job v < k * job.checkpointInterval) : v < k * job.checkpointInterval := by
  have hlt : v / job.checkpointInterval < k := lt_of_mul_lt_mul_right h (by omega)
  exact (Int.ediv_lt_iff_lt_mul (by omega)).mp hlt

theorem punctual_of_staleness_zero (hci : 1 ≤ job.checkpointInterval) (hstale : job.staleness = 0)
    (hF : Flow job t) (hsync : Synced job t) (hK : ControlPlane.Known job t) : Punctual job t := by
  intro n m hm
  have hrec := mem_received (hF.sound n) (.inr (.inr (.inr hm)))
  obtain ⟨rfl, k, hsent⟩ := hK n m (.inl hrec)
  obtain ⟨u, hu⟩ := exists_mem_of_ne_nil _ hsent.ids
  have h₁ := hF.received_version_le hsync hsent.part hrec ⟨⟨rfl, rfl⟩, hu⟩
  have h₂ := hsync.versions_le hsent.part
  have h₃ := dueAt_le hci m.version
  omega

variable [LinearOrder K]

/-- What an event applies is the update that it runs. -/
theorem applied_cluster {n k : Int} {f : ClusterEvent} (hF : Flow job s.toControlPlane)
    (hn : n ∈ job.nodes) (h : s.toCluster.step job (n, f) = .ok s'.toCluster)
    {m : JoinMeta (List B)} (hm : m ∈ (s'.controller k).pc.applied) :
    m ∈ (s.controller k).pc.applied ∨ (k = n ∧ ∃ i, f = .plane (.execFetch i) ∧
      (s.controller n).pc.fetchExecutor[i]? = some (.join m)) := by
  by_cases hf : ∃ i, f = .plane (.execFetch i)
  · obtain ⟨i, rfl⟩ := hf
    obtain ⟨x, hx, hplane, -⟩ := step_exec hn h
    rw [hplane, set_controller] at hm
    split at hm
    · next hk =>
      subst hk
      by_cases hi : ∃ m', (s.controller k).pc.fetchExecutor[i]? = some (.join m')
      · obtain ⟨m', hi⟩ := hi
        obtain ⟨-, happ, -, -⟩ := execFetch_join (hF.sound k).layout hx hi
        rw [happ] at hm
        refine (mem_append.mp hm).imp_right fun hm => ⟨rfl, i, rfl, ?_⟩
        rw [mem_singleton.mp hm]
        exact hi
      · obtain ⟨-, happ, -⟩ := execFetch_other (hF.sound k).layout hx fun m' h' => hi ⟨m', h'⟩
        exact .inl (happ ▸ hm)
    · exact .inl hm
  · obtain ⟨-, hplane⟩ := step_quiet (fun i hi => hf ⟨i, hi⟩) h
    rcases hplane with heq | ⟨j, g, hg, -, hj⟩
    · exact .inl (heq ▸ hm)
    · exact .inl (applied_move (step_move hj) hg k ▸ hm)

theorem updateVersions_cluster {t t' : Cluster K M O B} (h : t.step job a = .ok t') (k p : Int) :
    (t.controller k).pc.updateVersions.val p ≤ (t'.controller k).pc.updateVersions.val p := by
  rcases move_plane (Cluster.step_move h) with heq | ⟨b, hb⟩
  · rw [heq]
  · exact updateVersions_move (step_move hb) k p

theorem punctual_step {n : Int} {e : CheckpointEvent} (hF : Flow job s.toControlPlane)
    (h : Punctual job s.toControlPlane) (hok : OnTime job s (n, e))
    (hstep : step job s (n, e) = .ok s') : Punctual job s'.toControlPlane := by
  rcases step_cluster hstep with ⟨heq, -⟩ | ⟨f, rfl, hn, hf, -⟩
  · rw [heq]
    exact h
  · intro k m hm
    refine le_trans ?_ (updateVersions_cluster hf k m.partId)
    rcases applied_cluster hF hn hf hm with hm | ⟨rfl, i, rfl, hi⟩
    · exact h k m hm
    · exact hok m (by rw [hi]; rfl)

end Punctual

/-! ## Cuts -/

section Cuts

variable {job : MapJoin K M O B} {s s' : Checkpointing K M O B} [LinearOrder K]
  {files : String → Option (CheckpointFile K O)}

/-- What was taken for checkpoint `k` of partition `p`. -/
structure Consistent (job : MapJoin K M O B) (p k : Int) (c : Cut K O B) : Prop where
  part : ∀ m ∈ c.applied, m.partId = p
  tokens : ∀ w u, tokensIn c.applied p w u =
    if 0 ≤ w ∧ w < k * job.checkpointInterval ∧ u ∈ job.mapParts then 1 else 0
  contents : job.CombineLaw → (∀ q, Unsorted (job.initial q)) →
    Holds job p c.contents (c.applied.flatMap job.outputs)

omit [LinearOrder K] in
/-- `v` versions are counted and nothing of a later version is applied. -/
theorem tokens_of_counted (hF : Flow job t) {p v : Int} (hp : p ∈ job.updateParts)
    (hv : (t.controller (job.owner p)).pc.updateVersions.val p = v)
    (hlt : ∀ m ∈ (t.controller (job.owner p)).pc.applied, m.partId = p → m.version < v) (w u : Int) :
    tokensIn (t.controller (job.owner p)).pc.applied p w u =
      if 0 ≤ w ∧ w < v ∧ u ∈ job.mapParts then 1 else 0 := by
  have hsound := hF.sound (job.owner p)
  split_ifs with hw
  · obtain ⟨h0, hwv, hu⟩ := hw
    obtain ⟨hu0, hulen⟩ := MapJoin.mem_mapParts.mp hu
    have honce := hF.once (by omega) (job.owner p)
    refine hF.applied_of_completed hp hu ?_
    refine counted_of_lt honce (counted_stable.reachIf (hF.runs _)) hv.ge (fun x hx => ?_) h0 hwv
    -- a counted version has been applied
    obtain ⟨m, hm, ⟨hmp, rfl⟩, -⟩ := forgotten_applied hsound ((honce.full p x hx).2 u hu0 hulen)
    exact hlt m hm hmp
  · by_contra hne
    obtain ⟨m, hm, ⟨hmp, rfl⟩, hu⟩ := tokensIn_pos.mp (Nat.pos_of_ne_zero hne)
    obtain ⟨h0, hrange⟩ := (hF.arrivals _).range m
      (mem_received hsound (.inr (.inr (.inr hm))))
    exact hw ⟨h0, hlt m hm hmp, MapJoin.mem_mapParts.mpr (hrange u hu)⟩

/-- A checkpoint starts after an update of its partition and before any later one. -/
theorem applied_of_start {t t' : Cluster K M O B} {p k : Int} (hci : 1 ≤ job.checkpointInterval)
    (h : Punctual job t.toControlPlane)
    (hsaved : Saved (job.spec (job.owner p)) (t'.controller (job.owner p)).pc)
    (hstep : t.step job a = .ok t')
    (hk : .checkpoint p k ∈ (t'.controller (job.owner p)).pc.fetchExecutor)
    (hnew : .checkpoint p k ∉ (t.controller (job.owner p)).pc.fetchExecutor) :
    ∀ m ∈ (t'.controller (job.owner p)).pc.applied, m.partId = p →
      m.version < k * job.checkpointInterval := by
  rcases move_plane (Cluster.step_move hstep) with heq | ⟨b, hb⟩
  · exact absurd (heq ▸ hk) hnew
  · rcases move_pc (step_move hb) (job.owner p) with hpc | ⟨x, hx, -⟩
    · exact absurd (hpc ▸ hk) hnew
    · obtain ⟨happ, hver⟩ := started_step hx hk hnew
      have hnow : (t'.controller (job.owner p)).pc.updateVersions.val p =
        k * job.checkpointInterval := (hsaved.task p k hk).1
      intro m hm hmp
      have hdue := h _ m (happ ▸ hm)
      rw [hmp] at hdue
      exact lt_of_dueAt_lt hci (by omega)

/-- Every cut is consistent. -/
theorem cuts_step {n : Int} {e : CheckpointEvent} (hci : 1 ≤ job.checkpointInterval)
    (hs : Reachable job files s) (hP : Punctual job s.toControlPlane)
    (h : ∀ p k c, s.cuts p k = some c → Consistent job p k c) (hstep : step job s (n, e) = .ok s') :
    ∀ p k c, s'.cuts p k = some c → Consistent job p k c := by
  intro p k c hc
  have hD := disk_reachable hci hs
  have hnext : Reachable job files s' := .tail hs trivial hstep
  have hs' : Cluster.Reachable job s'.toCluster := hnext.cluster
  rcases step_cluster hstep with ⟨-, hcuts⟩ | ⟨f, -, -, hf, hcuts⟩
  · exact h p k c (hcuts ▸ hc)
  · rw [hcuts] at hc
    rcases record_cuts.mp hc with hc | ⟨hnone, hmem, rfl⟩
    · exact h p k c hc
    · have hF := (synced_reachable hs'.plane).1
      have hsaved : Saved _ (s'.controller (job.owner p)).pc := saved_reachIf hci (hF.runs _)
      have hnew : .checkpoint p k ∉ (s.controller (job.owner p)).pc.fetchExecutor := by
        intro hold
        have hsome := (hD.started p k).mpr (.inr hold)
        rw [hnone] at hsome
        cases hsome
      have hp : p ∈ job.updateParts := by
        obtain ⟨i, hi⟩ := mem_iff_getElem?.mp hmem
        exact (MapJoin.mem_spec_update.mp
          ((hF.sound _).layout.inUse _ (mem_inUse_of_task hi))).1
      refine ⟨fun m hm => of_decide_eq_true (mem_filter.mp hm).2, fun w u => ?_,
        fun hcomb hU => (contents_reachable hcomb hU hs').holds _ p⟩
      show tokensIn (appliedTo (s'.controller (job.owner p)) p) p w u = _
      rw [tokensIn_appliedTo]
      exact tokens_of_counted hF hp (hsaved.task p k hmem).1
        (applied_of_start hci hP hsaved hf hmem hnew) w u

theorem known_reachable (ht : ControlPlane.Reachable job t) : ControlPlane.Known job t :=
  (ht.induct (P := fun t => Flow job t ∧ ControlPlane.Known job t) ⟨flow_init, known_init⟩
    fun _ _ _ h hm => ⟨flow_move h.1 hm, known_move h.1 h.2 hm⟩).2

theorem consistent_reach (hci : 1 ≤ job.checkpointInterval)
    (hs : Reach (step job) (InStep job) (init job files) s) :
    Punctual job s.toControlPlane ∧ ∀ p k c, s.cuts p k = some c → Consistent job p k c := by
  refine hs.induct (P := fun s : Checkpointing K M O B => Punctual job s.toControlPlane ∧
    ∀ p k c, s.cuts p k = some c → Consistent job p k c)
    ⟨fun n m hm => (by cases hm), fun p k c hc => (by cases hc)⟩ fun t a u ht h hok hstep => ?_
  have htrue : Reachable job files t := ht.mono fun _ _ _ => trivial
  refine ⟨?_, cuts_step hci htrue h.1 h.2 hstep⟩
  rcases hok with hstale | hok
  · have hnext : Reachable job files u := .tail htrue trivial hstep
    have hu := hnext.cluster.plane
    obtain ⟨hF, hsync⟩ := synced_reachable hu
    exact punctual_of_staleness_zero hci hstale hF hsync (known_reachable hu)
  · exact punctual_step (synced_reachable htrue.cluster.plane).1 h.1 hok hstep

/-- Node 1 maps twice and node 2 once; only the outputs for version 0 arrive. -/
def savedInTime : List (Int × CheckpointEvent) :=
  ([(1, .hear), (2, .hear), (1, .beginMap 0), (1, .endMap 0), (1, .process 0), (1, .beginMap 0),
    (1, .endMap 0), (1, .process 0), (1, .deliver 0), (1, .execFetch 0), (1, .process 0),
    (2, .beginMap 0), (2, .endMap 0), (2, .deliver 0), (1, .execFetch 0), (1, .process 0)] :
    List (Int × PlaneEvent)).map fun a => (a.1, .cluster (.plane a.2))

/-- The outputs of node 1 for versions 0 and 1 are applied before that of node 2 for version 0. -/
def savedAhead : List (Int × CheckpointEvent) :=
  ([(1, .hear), (2, .hear), (1, .beginMap 0), (1, .endMap 0), (1, .process 0), (1, .beginMap 0),
    (1, .endMap 0), (1, .process 0), (1, .deliver 0), (1, .deliver 1), (1, .execFetch 0),
    (1, .process 0), (1, .execFetch 0), (1, .process 0), (2, .beginMap 0), (2, .endMap 0),
    (2, .deliver 0), (1, .execFetch 0), (1, .process 0)] : List (Int × PlaneEvent)).map
      fun a => (a.1, .cluster (.plane a.2))

end Cuts

end Checkpointing

end Tangram
