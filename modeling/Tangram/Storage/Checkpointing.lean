import Tangram.Cluster.Contents
import Tangram.Cluster.Isolation
import Tangram.Partition.Lookup
import Tangram.Scheduler.Scheduler
import Tangram.Storage.Urls
import Tangram.Worker.Checkpoint

/-!
# Interval checkpoints on disk

The cluster together with the files its checkpoint tasks write (`TryCheckpoint`
without `BGCP`).  Such a task puts one piece of the partition after the other into
a bin (`ToBin`), opens the file and writes one piece of the bin after the other;
only when it is through does it tell its controller.  All of this may interleave
with everything else in the cluster, and each piece is read as it is at that
moment.

`cuts` records the version and the contents of a partition when `TryCheckpoint`
starts a checkpoint of it.
-/

namespace Tangram

open StepRun List Function

variable {K M O B : Type}

/-! ## State -/

structure CheckpointFile (K O : Type) where
  items : List (BinItem K O)
  closed : Bool

/-- How far the task of a checkpoint is. -/
inductive SaveTask (K O : Type)
  | waiting
  | serialising (bin : List (BinItem K O))
  | writing (bin : List (BinItem K O))
  | written

/-- A partition when a checkpoint of it starts. -/
structure Cut (K O B : Type) where
  version : Int
  contents : IndexedSeqPartition K O
  /-- The messages that were applied to it so far. -/
  applied : List (JoinMeta (List B))

structure Checkpointing (K M O B : Type) extends Cluster K M O B where
  /-- by node and partition -/
  tasks : Int → Int → SaveTask K O
  files : String → Option (CheckpointFile K O)
  /-- by partition and number of the checkpoint -/
  cuts : Int → Int → Option (Cut K O B)

inductive CheckpointEvent
  | cluster (e : ClusterEvent)
  /-- Task `i` of the fetch executor goes on in `ToBin`. -/
  | serialise (i : Nat)
  /-- It goes on in `Write`. -/
  | write (i : Nat)

namespace Checkpointing

variable (job : MapJoin K M O B) {files : String → Option (CheckpointFile K O)} {p k : Int}

/-- Files may be there already. -/
def init (files : String → Option (CheckpointFile K O)) : Checkpointing K M O B where
  toCluster := Cluster.init job
  tasks := fun _ _ => .waiting
  files := files
  cuts := fun _ _ => none

/-- The file of partition `p` in checkpoint `k`. -/
def destUrl (p k : Int) : String :=
  getCheckpointUrl (cpName job.checkpointPath k) job.updateCollectionId p

/-! ## The task of a checkpoint -/

/-- Task `i` of the fetch executor of `n`, if it is a checkpoint. -/
def checkpointAt (s : Checkpointing K M O B) (n : Int) (i : Nat) : Option (Int × Int) :=
  match (s.controller n).pc.fetchExecutor[i]? with
  | some (.checkpoint p k) => some (p, k)
  | _ => none

def setTask (s : Checkpointing K M O B) (n p : Int) (t : SaveTask K O) : Checkpointing K M O B :=
  { s with tasks := Function.update s.tasks n (Function.update (s.tasks n) p t) }

def setFile (s : Checkpointing K M O B) (url : String) (f : CheckpointFile K O) :
    Checkpointing K M O B :=
  { s with files := Function.update s.files url (some f) }

/-- One piece of the partition is added to the bin; after the last the file is opened. -/
def serialise (s : Checkpointing K M O B) (n p k : Int) : Checkpointing K M O B :=
  match s.tasks n p with
  | .waiting => s.setTask n p (.serialising [])
  | .serialising bin =>
    match (s.partitions n p).toBin[bin.length]? with
    | some x => s.setTask n p (.serialising (bin ++ [x]))
    | none => (s.setTask n p (.writing bin)).setFile (destUrl job p k) ⟨[], false⟩
  | _ => s

/-- One piece of the bin is written; after the last the file is closed. -/
def write (s : Checkpointing K M O B) (n p k : Int) : Checkpointing K M O B :=
  match s.tasks n p, s.files (destUrl job p k) with
  | .writing bin, some f =>
    match bin[f.items.length]? with
    | some x => s.setFile (destUrl job p k) ⟨f.items ++ [x], false⟩
    | none => (s.setTask n p .written).setFile (destUrl job p k) ⟨f.items, true⟩
  | _, _ => s

/-! ## One step -/

/-- A checkpoint `k` of `p` is to be written or being written. -/
def saving (s : Checkpointing K M O B) (p k : Int) : Bool :=
  (s.controller (job.owner p)).pc.fetchExecutor.any fun
    | .checkpoint q j => q = p && j = k
    | _ => false

def cut (s : Checkpointing K M O B) (p : Int) : Cut K O B where
  version := (s.controller (job.owner p)).pc.updateVersions.val p
  contents := s.partitions (job.owner p) p
  applied := Cluster.appliedTo (s.controller (job.owner p)) p

/-- The checkpoints that start are recorded. -/
def record (s : Checkpointing K M O B) : Checkpointing K M O B :=
  { s with
    cuts := fun p k => (s.cuts p k).or (if saving job s p k then some (cut job s p) else none) }

def stepCluster [LinearOrder K] (s : Checkpointing K M O B) (n : Int) (e : ClusterEvent) :
    Except ClusterCheck (Checkpointing K M O B) := do
  let cluster ← s.toCluster.step job (n, e)
  return record job { s with toCluster := cluster }

/-- A checkpoint task ends when its file is written. -/
def execFetch [LinearOrder K] (s : Checkpointing K M O B) (n : Int) (i : Nat) :
    Except ClusterCheck (Checkpointing K M O B) :=
  match s.checkpointAt n i with
  | none => s.stepCluster job n (.plane (.execFetch i))
  | some (p, _) =>
    match s.tasks n p with
    | .written => (s.setTask n p .waiting).stepCluster job n (.plane (.execFetch i))
    | _ => .ok s

def step [LinearOrder K] (s : Checkpointing K M O B) :
    Int × CheckpointEvent → Except ClusterCheck (Checkpointing K M O B)
  | (n, e) =>
    if n ∈ job.nodes then
      match e with
      | .cluster (.plane (.execFetch i)) => s.execFetch job n i
      | .cluster e => s.stepCluster job n e
      | .serialise i => .ok ((s.checkpointAt n i).elim s fun pk => s.serialise job n pk.1 pk.2)
      | .write i => .ok ((s.checkpointAt n i).elim s fun pk => s.write job n pk.1 pk.2)
    else .ok s

/-- The states of every run. -/
def Reachable [LinearOrder K] (files : String → Option (CheckpointFile K O))
    (s : Checkpointing K M O B) : Prop :=
  Reach (step job) (fun _ _ => True) (init job files) s

/-! ## What is on disk -/

section Disk

variable {job} {s : Checkpointing K M O B} {t : SaveTask K O} {c : Cut K O B}

/-- Checkpoint `k` of `p` is being saved; it started with `c`. -/
def Saving (job : MapJoin K M O B) (s : Checkpointing K M O B) (p k : Int) (c : Cut K O B) : Prop :=
  .checkpoint p k ∈ (s.controller (job.owner p)).pc.fetchExecutor ∧ s.cuts p k = some c

/-- What the task has done so far is a part of what `ToBin` gives for the partition at the start. -/
def Progress (job : MapJoin K M O B) (s : Checkpointing K M O B) (p : Int) : SaveTask K O → Prop
  | .waiting => True
  | .serialising bin => ∃ k c, Saving job s p k c ∧ bin <+: c.contents.toBin
  | .writing bin => ∃ k c f, Saving job s p k c ∧ bin = c.contents.toBin ∧
      s.files (destUrl job p k) = some f ∧ f.items <+: bin
  | .written => ∃ k c, Saving job s p k c ∧
      s.files (destUrl job p k) = some ⟨c.contents.toBin, true⟩

structure Disk (job : MapJoin K M O B) (s : Checkpointing K M O B) : Prop where
  started : ∀ p k, (s.cuts p k).isSome ↔
    (p, k) ∈ (s.controller (job.owner p)).pc.checkpoints ∨
      .checkpoint p k ∈ (s.controller (job.owner p)).pc.fetchExecutor
  version : ∀ p k c, s.cuts p k = some c → c.version = k * job.checkpointInterval
  fixed : ∀ p k c, Saving job s p k c → s.partitions (job.owner p) p = c.contents
  task : ∀ p, Progress job s p (s.tasks (job.owner p) p)
  files : ∀ p k c, s.cuts p k = some c →
    (p, k) ∈ (s.controller (job.owner p)).pc.checkpoints →
      s.files (destUrl job p k) = some ⟨c.contents.toBin, true⟩

theorem disk_init (files : String → Option (CheckpointFile K O)) : Disk job (init job files) where
  started _ _ := by simp [init, Cluster.init, ControlPlane.init, Controller.init, PlanController.setup]
  version _ _ _ h := by cases h
  fixed _ _ _ h := by cases h.2
  task _ := trivial
  files _ _ _ h := by cases h

theorem destUrl_inj {p k p' k' : Int} (h : destUrl job p k = destUrl job p' k') :
    p = p' ∧ k = k' := by
  obtain ⟨hname, -, hp⟩ := getCheckpointUrl_inj h
  exact ⟨hp, cpName_inj hname⟩

theorem saving_iff : saving job s p k = true ↔
    .checkpoint p k ∈ (s.controller (job.owner p)).pc.fetchExecutor := by
  unfold saving
  rw [any_eq_true]
  constructor
  · rintro ⟨t, ht, h⟩
    split at h
    · obtain ⟨rfl, rfl⟩ : _ = p ∧ _ = k := by simpa using h
      exact ht
    · cases h
  · intro h
    exact ⟨_, h, by simp⟩

/-- A cut was recorded before, or it is taken now. -/
theorem record_cuts : (record job s).cuts p k = some c ↔
    s.cuts p k = some c ∨ (s.cuts p k = none ∧
      .checkpoint p k ∈ (s.controller (job.owner p)).pc.fetchExecutor ∧ cut job s p = c) := by
  rw [record, Option.or_eq_some_iff]
  by_cases h : saving job s p k
  · simp [h, saving_iff.mp h]
  · have hno := mt saving_iff.mpr h
    simp [h, hno]

theorem Progress.mono {s' : Checkpointing K M O B} {p : Int} (h : Progress job s p t)
    (hsaving : ∀ k c, Saving job s p k c → Saving job s' p k c)
    (hfiles : ∀ k, s'.files (destUrl job p k) = s.files (destUrl job p k)) :
    Progress job s' p t := by
  cases t with
  | waiting => trivial
  | serialising bin =>
    obtain ⟨k, c, hc, hbin⟩ := h
    exact ⟨k, c, hsaving k c hc, hbin⟩
  | writing bin =>
    obtain ⟨k, c, f, hc, hbin, hf, hitems⟩ := h
    exact ⟨k, c, f, hsaving k c hc, hbin, (hfiles k).trans hf, hitems⟩
  | written =>
    obtain ⟨k, c, hc, hf⟩ := h
    exact ⟨k, c, hsaving k c hc, (hfiles k).trans hf⟩

theorem Progress.saving {p : Int} (h : Progress job s p t) (ht : t ≠ .waiting) :
    ∃ k c, Saving job s p k c := by
  cases t with
  | waiting => exact absurd rfl ht
  | serialising bin =>
    obtain ⟨k, c, hc, -⟩ := h
    exact ⟨k, c, hc⟩
  | writing bin =>
    obtain ⟨k, c, f, hc, -⟩ := h
    exact ⟨k, c, hc⟩
  | written =>
    obtain ⟨k, c, hc, -⟩ := h
    exact ⟨k, c, hc⟩

/-- The cluster moves, no checkpoint ends, and what is being saved is not updated. -/
theorem Disk.advance (h : Disk job s) {t : Cluster K M O B}
    (hsaved : ∀ n, PlanController.Saved (job.spec n) (t.controller n).pc)
    (hcp : ∀ n, (t.controller n).pc.checkpoints = (s.controller n).pc.checkpoints)
    (htasks : ∀ n p k, .checkpoint p k ∈ (s.controller n).pc.fetchExecutor →
      .checkpoint p k ∈ (t.controller n).pc.fetchExecutor)
    (hpart : ∀ p k, .checkpoint p k ∈ (s.controller (job.owner p)).pc.fetchExecutor →
      t.partitions (job.owner p) p = s.partitions (job.owner p) p) :
    Disk job (record job { s with toCluster := t }) := by
  have hkeep : ∀ p k c, Saving job s p k c →
      Saving job (record job { s with toCluster := t }) p k c :=
    fun p k c hc => ⟨htasks _ p k hc.1, record_cuts.mpr (.inl hc.2)⟩
  -- a checkpoint that is to be saved has not been written
  have hnew : ∀ p k, .checkpoint p k ∈ (t.controller (job.owner p)).pc.fetchExecutor →
      (p, k) ∉ (s.controller (job.owner p)).pc.checkpoints := by
    intro p k hk hmem
    exact ((hsaved _).task p k hk).2 ((hcp _).symm ▸ hmem)
  refine ⟨fun p k => ?_, fun p k c hc => ?_, fun p k c hc => ?_, fun p => ?_, fun p k c hc hmem => ?_⟩
  · show ((s.cuts p k).or _).isSome ↔ (p, k) ∈ (t.controller _).pc.checkpoints ∨ _
    rw [Option.isSome_or, Bool.or_eq_true, h.started, hcp]
    have hif : (if saving job { s with toCluster := t } p k = true
        then some (cut job { s with toCluster := t } p) else none).isSome = true ↔
        .checkpoint p k ∈ (t.controller (job.owner p)).pc.fetchExecutor := by
      rw [← saving_iff (s := { s with toCluster := t })]
      split <;> simp_all
    rw [hif]
    constructor
    · rintro ((hmem | hmem) | hmem)
      · exact .inl hmem
      · exact .inr (htasks _ p k hmem)
      · exact .inr hmem
    · rintro (hmem | hmem)
      · exact .inl (.inl hmem)
      · exact .inr hmem
  · rcases record_cuts.mp hc with hc | ⟨-, hmem, rfl⟩
    · exact h.version p k c hc
    · exact ((hsaved _).task p k hmem).1
  · rcases record_cuts.mp hc.2 with hold | ⟨-, -, rfl⟩
    · have hmem := ((h.started p k).mp (by rw [hold]; rfl)).resolve_left (hnew p k hc.1)
      exact (hpart p k hmem).trans (h.fixed p k c ⟨hmem, hold⟩)
    · rfl
  · exact (h.task p).mono (hkeep p) fun _ => rfl
  · replace hmem : (p, k) ∈ (s.controller (job.owner p)).pc.checkpoints := hcp _ ▸ hmem
    rcases record_cuts.mp hc with hold | ⟨hnone, hmem', -⟩
    · exact h.files p k c hold hmem
    · exact absurd hmem (hnew p k hmem')

/-- One checkpoint at a time is saved of a partition. -/
theorem Saving.unique (hci : 1 ≤ job.checkpointInterval)
    (hsaved : ∀ n, PlanController.Saved (job.spec n) (s.controller n).pc) {p k j : Int}
    {c : Cut K O B} (h : Saving job s p k c)
    (hj : .checkpoint p j ∈ (s.controller (job.owner p)).pc.fetchExecutor) : k = j := by
  have h₁ : k * job.checkpointInterval = j * job.checkpointInterval :=
    (((hsaved _).task p k h.1).1.symm).trans ((hsaved _).task p j hj).1
  exact Int.eq_of_mul_eq_mul_right (by omega) h₁

/-- The task of a checkpoint that is written ends. -/
theorem Disk.finish (h : Disk job s) (hci : 1 ≤ job.checkpointInterval)
    (hsaved : ∀ n, PlanController.Saved (job.spec n) (s.controller n).pc) {t : Cluster K M O B}
    (hw : s.tasks (job.owner p) p = .written)
    (hk : .checkpoint p k ∈ (s.controller (job.owner p)).pc.fetchExecutor)
    (hcp : ∀ q j, (q, j) ∈ (t.controller (job.owner q)).pc.checkpoints ↔ (q, j) ∈ (s.controller (job.owner q)).pc.checkpoints ∨ (q, j) = (p, k))
    (htasks : ∀ q j, .checkpoint q j ∈ (t.controller (job.owner q)).pc.fetchExecutor ↔ .checkpoint q j ∈ (s.controller (job.owner q)).pc.fetchExecutor ∧ q ≠ p)
    (hpart : t.partitions = s.partitions) :
    Disk job (record job { s.setTask (job.owner p) p .waiting with toCluster := t }) := by
  obtain ⟨j, c, hsav, hfile⟩ : Progress job s p .written := hw ▸ h.task p
  obtain rfl : j = k := hsav.unique hci hsaved hk
  -- nothing starts, so nothing is recorded
  have hcuts : ∀ q i, (record job { s.setTask (job.owner p) p .waiting with toCluster := t }).cuts q i =
      s.cuts q i := by
    intro q i
    show (s.cuts q i).or _ = s.cuts q i
    by_cases hc : (s.cuts q i).isSome
    · obtain ⟨c', hc'⟩ := Option.isSome_iff_exists.mp hc
      rw [hc']
      rfl
    · have hnot : saving job { s.setTask (job.owner p) p .waiting with toCluster := t } q i = false := by
        rw [Bool.eq_false_iff]
        intro hs
        exact hc ((h.started q i).mpr (.inr ((htasks q i).mp (saving_iff.mp hs)).1))
      rw [Option.not_isSome_iff_eq_none.mp hc, hnot]
      rfl
  refine ⟨fun q i => ?_, fun q i c' hc' => ?_, fun q i c' hc' => ?_, fun q => ?_,
    fun q i c' hc' hmem => ?_⟩
  · rw [hcuts, h.started]
    show _ ↔ (q, i) ∈ (t.controller _).pc.checkpoints ∨ _ ∈ (t.controller _).pc.fetchExecutor
    rw [hcp, htasks]
    constructor
    · rintro (hm | hm)
      · exact .inl (.inl hm)
      · by_cases hq : q = p
        · subst hq
          exact .inl (.inr (by rw [hsav.unique hci hsaved hm]))
        · exact .inr ⟨hm, hq⟩
    · rintro ((hm | hm) | ⟨hm, -⟩)
      · exact .inl hm
      · cases hm
        exact .inr hk
      · exact .inr hm
  · exact h.version q i c' (hcuts q i ▸ hc')
  · obtain ⟨hm, -⟩ := (htasks q i).mp hc'.1
    show t.partitions _ _ = _
    rw [hpart]
    exact h.fixed q i c' ⟨hm, hcuts q i ▸ hc'.2⟩
  · show Progress job _ q ((update s.tasks _ (update (s.tasks _) p .waiting)) _ q)
    by_cases hq : q = p
    · subst hq
      rw [update_self, update_self]
      trivial
    · have htask : update s.tasks (job.owner p)
          (update (s.tasks (job.owner p)) p .waiting) (job.owner q) q =
          s.tasks (job.owner q) q := by
        by_cases ho : job.owner q = job.owner p
        · rw [ho, update_self, update_of_ne hq]
        · rw [update_of_ne ho]
      rw [htask]
      refine (h.task q).mono (fun i c' hc' => ⟨?_, ?_⟩) fun _ => rfl
      · exact (htasks q i).mpr ⟨hc'.1, hq⟩
      · rw [hcuts]
        exact hc'.2
  · rw [hcuts] at hc'
    rcases (hcp q i).mp hmem with hm | hm
    · exact h.files q i c' hc' hm
    · cases hm
      cases Option.some.inj (hc'.symm.trans hsav.2)
      exact hfile

theorem setTask_tasks_ne {n p m q : Int} (hq : q ≠ p) :
    (s.setTask n p t).tasks m q = s.tasks m q := by
  show update s.tasks n (update (s.tasks n) p t) m q = s.tasks m q
  by_cases hm : m = n
  · rw [hm, update_self, update_of_ne hq]
  · rw [update_of_ne hm]

theorem setTask_tasks_self {n p : Int} : (s.setTask n p t).tasks n p = t := by
  show update s.tasks n (update (s.tasks n) p t) n p = t
  rw [update_self, update_self]

theorem setTask_self {n p : Int} : s.setTask n p (s.tasks n p) = s := by
  simp [setTask]

/-- The task that saves `p` goes on. -/
theorem Disk.save (h : Disk job s)
    (hsaved : ∀ n, PlanController.Saved (job.spec n) (s.controller n).pc)
    (hsav : Saving job s p k c) (hf : ∀ url, url ≠ destUrl job p k → files url = s.files url)
    (ht : Progress job { s.setTask (job.owner p) p t with files := files } p t) :
    Disk job { s.setTask (job.owner p) p t with files := files } := by
  refine ⟨h.started, h.version, h.fixed, fun q => ?_, fun q j c' hc' hmem => ?_⟩
  · by_cases hq : q = p
    · subst hq
      show Progress job _ q ((s.setTask (job.owner q) q t).tasks (job.owner q) q)
      rw [setTask_tasks_self]
      exact ht
    · show Progress job _ q ((s.setTask (job.owner p) p t).tasks (job.owner q) q)
      rw [setTask_tasks_ne hq]
      refine (h.task q).mono (fun _ _ hc => hc) fun j => hf _ fun he => ?_
      exact hq (destUrl_inj he).1
  · show files (destUrl job q j) = _
    rw [hf]
    · exact h.files q j c' hc' hmem
    · intro he
      obtain ⟨rfl, rfl⟩ := destUrl_inj he
      exact ((hsaved _).task _ _ hsav.1).2 hmem

theorem prefix_next {α : Type} {l l' : List α} {x : α} (h : l <+: l') (hx : l'[l.length]? = some x) :
    l ++ [x] <+: l' := by
  obtain ⟨hlt, hget⟩ := List.getElem?_eq_some_iff.mp hx
  rw [prefix_iff_eq_take] at h ⊢
  rw [length_append, length_singleton, take_succ_eq_append_getElem hlt, ← h, hget]

theorem Disk.serialise (h : Disk job s) (hci : 1 ≤ job.checkpointInterval)
    (hsaved : ∀ n, PlanController.Saved (job.spec n) (s.controller n).pc)
    (hsav : Saving job s p k c) : Disk job (s.serialise job (job.owner p) p k) := by
  have hp := h.task p
  unfold Checkpointing.serialise
  split
  · exact h.save hsaved hsav (fun _ _ => rfl) ⟨k, c, hsav, nil_prefix⟩
  · next bin hbin =>
    rw [hbin] at hp
    obtain ⟨j, c', hsav', hpre⟩ := hp
    obtain rfl : j = k := hsav'.unique hci hsaved hsav.1
    cases Option.some.inj (hsav'.2.symm.trans hsav.2)
    rw [h.fixed p j c hsav]
    split
    · next x hx =>
      -- the next piece is the one that comes after the bin
      exact h.save hsaved hsav (fun _ _ => rfl) ⟨j, c, hsav, prefix_next hpre hx⟩
    · next hx =>
      have hall : bin = c.contents.toBin :=
        hpre.eq_of_length_le (List.getElem?_eq_none_iff.mp hx)
      refine h.save hsaved hsav (fun url hurl => update_of_ne hurl _ _)
        ⟨j, c, ⟨[], false⟩, hsav, hall, ?_, nil_prefix⟩
      exact update_self _ _ _
  · exact h

theorem Disk.write (h : Disk job s) (hci : 1 ≤ job.checkpointInterval)
    (hsaved : ∀ n, PlanController.Saved (job.spec n) (s.controller n).pc)
    (hsav : Saving job s p k c) : Disk job (s.write job (job.owner p) p k) := by
  have hp := h.task p
  unfold Checkpointing.write
  split
  · next bin f hbin hfile =>
    have hself := setTask_self (s := s) (n := job.owner p) (p := p)
    rw [hbin] at hp hself
    obtain ⟨j, c', f', hsav', hall, hfile', hpre⟩ := hp
    obtain rfl : j = k := hsav'.unique hci hsaved hsav.1
    cases Option.some.inj (hsav'.2.symm.trans hsav.2)
    cases Option.some.inj (hfile'.symm.trans hfile)
    split
    · next x hx =>
      have h' := h.save (t := .writing bin) hsaved hsav
        (fun url hurl => update_of_ne hurl (some ⟨f.items ++ [x], false⟩) s.files)
        ⟨j, c, _, hsav, hall, update_self _ _ _, prefix_next hpre hx⟩
      rw [hself] at h'
      exact h'
    · next hx =>
      have hdone : f.items = c.contents.toBin :=
        (hpre.eq_of_length_le (List.getElem?_eq_none_iff.mp hx)).trans hall
      refine h.save hsaved hsav (fun url hurl => update_of_ne hurl _ _) ⟨j, c, hsav, ?_⟩
      rw [← hdone]
      exact update_self _ _ _
  · exact h

end Disk

/-! ## Every step -/

section Steps

variable {job} [LinearOrder K] {s s' : Checkpointing K M O B} {n : Int} {i : Nat}

open ControlPlane PlanController

omit [LinearOrder K] in
theorem checkpointAt_mem (h : s.checkpointAt n i = some (p, k)) :
    (s.controller n).pc.fetchExecutor[i]? = some (.checkpoint p k) := by
  unfold checkpointAt at h
  split at h
  · next hi =>
    cases Option.some.inj h
    exact hi
  · cases h

omit [LinearOrder K] in
theorem checkpointAt_none (h : s.checkpointAt n i = none) (p k : Int) :
    (s.controller n).pc.fetchExecutor[i]? ≠ some (.checkpoint p k) := by
  intro hi
  simp [checkpointAt, hi] at h

omit [LinearOrder K] in
theorem Flow.owner_of_checkpoint {t : ControlPlane K M B} (hF : Flow job t)
    (h : .checkpoint p k ∈ (t.controller n).pc.fetchExecutor) : job.owner p = n := by
  obtain ⟨i, hi⟩ := mem_iff_getElem?.mp h
  exact (MapJoin.mem_spec_update.mp ((hF.sound n).layout.inUse _ (mem_inUse_of_task hi))).2

omit [LinearOrder K] in
theorem execFetch_pc {x x' : Controller K M B} (h : x.execFetch job n i = .ok x') :
    PlanController.execFetch (job.spec n) x.pc i = .ok x'.pc := by
  unfold Controller.execFetch at h
  obtain ⟨x₁, h₁, h⟩ := bind_eq_ok.mp h
  have hpc : x₁.pc = x.pc := by
    unfold Controller.takeTaskStream at h₁
    split at h₁
    · exact (takeStream_eq_ok h₁).1
    · cases h₁
      rfl
  obtain ⟨pc, hstep, rfl⟩ := act_eq_ok h
  rw [hpc] at hstep
  exact hstep

theorem Disk.quiet (h : Disk job s)
    (hsaved : ∀ n, Saved (job.spec n) (s'.controller n).pc) {e : ClusterEvent}
    (he : ∀ i, e ≠ .plane (.execFetch i)) (hstep : s.stepCluster job n e = .ok s') :
    Disk job s' := by
  obtain ⟨t, ht, hstep⟩ := bind_eq_ok.mp hstep
  cases hstep
  obtain ⟨hpart, hplane⟩ := Cluster.step_quiet he ht
  have htasks : ∀ k, (t.controller k).pc.checkpoints = (s.controller k).pc.checkpoints ∧
      (s.controller k).pc.fetchExecutor <+: (t.controller k).pc.fetchExecutor := by
    intro k
    rcases hplane with heq | ⟨m, f, hf, -, hm⟩
    · rw [heq]
      exact ⟨rfl, prefix_refl _⟩
    · rcases move_pc (ControlPlane.step_move hm) k with hpc | ⟨a, ha, -, -, hexec⟩
      · rw [hpc]
        exact ⟨rfl, prefix_refl _⟩
      · exact tasks_step (fun i hi => hf i (hexec i hi)) ha
  exact h.advance hsaved (fun k => (htasks k).1) (fun k p j hj => (htasks k).2.subset hj)
    fun p k _ => congrFun (congrFun hpart _) p

/-- A task other than a checkpoint runs. -/
theorem Disk.otherTask (h : Disk job s) (hF : Flow job s.toControlPlane) (hn : n ∈ job.nodes)
    (hsaved : ∀ n, Saved (job.spec n) (s'.controller n).pc) (hi : s.checkpointAt n i = none)
    (hstep : s.stepCluster job n (.plane (.execFetch i)) = .ok s') : Disk job s' := by
  obtain ⟨t, ht, hstep⟩ := bind_eq_ok.mp hstep
  cases hstep
  obtain ⟨x, hx, hplane, hpart⟩ := Cluster.step_exec hn ht
  obtain ⟨hcp, htasks⟩ := execFetch_noCheckpoint (checkpointAt_none hi) (execFetch_pc hx)
  have hcontroller : ∀ k, t.controller k = if k = n then x else s.controller k := by
    intro k
    rw [hplane, set_controller]
  refine h.advance hsaved (fun k => ?_) (fun k p j hj => ?_) fun p k hk => ?_
  · rw [hcontroller]
    split
    · next hk => rw [hcp, hk]
    · rfl
  · rw [hcontroller]
    split
    · next hk => exact (htasks p j).mpr (hk ▸ hj)
    · exact hj
  · rw [hpart]
    by_cases ho : job.owner p = n
    · rw [ho] at hk ⊢
      by_cases hm : ∃ m, (s.controller n).pc.fetchExecutor[i]? = some (.join m)
      · obtain ⟨m, hm⟩ := hm
        have hne := join_ne_of_checkpoint ((hF.sound n).excl p) hk (mem_of_getElem? hm)
        simp only [Cluster.runJoinTask, hm, update_self]
        exact update_of_ne hne.symm _ _
      · rw [Cluster.runJoinTask_other fun m h' => hm ⟨m, h'⟩]
    · rw [Cluster.runJoinTask_ne ho]

theorem Disk.endTask (h : Disk job s) (hci : 1 ≤ job.checkpointInterval)
    (hF : Flow job s.toControlPlane) (hn : n ∈ job.nodes)
    (hsaved : ∀ n, Saved (job.spec n) (s.controller n).pc) (hi : s.checkpointAt n i = some (p, k))
    (hw : s.tasks n p = .written)
    (hstep : (s.setTask n p .waiting).stepCluster job n (.plane (.execFetch i)) = .ok s') :
    Disk job s' := by
  obtain ⟨t, ht, hstep⟩ := bind_eq_ok.mp hstep
  cases hstep
  obtain ⟨x, hx, hplane, hpart⟩ := Cluster.step_exec hn ht
  replace hi := checkpointAt_mem hi
  have hmem := mem_of_getElem? hi
  have hx' := execFetch_checkpoint hi (execFetch_pc hx)
  have hcontroller : ∀ m, (t.controller m).pc = if m = n then x.pc else (s.controller m).pc := by
    intro m
    rw [hplane, set_controller]
    split <;> rfl
  obtain rfl := Flow.owner_of_checkpoint hF hmem
  refine h.finish hci hsaved hw hmem (fun q j => ?_) (fun q j => ?_) ?_
  · rw [hcontroller, hx']
    split
    · next ho =>
      rw [ho, mem_append, mem_singleton]
    · next ho =>
      refine (or_iff_left fun he => ho ?_).symm
      cases he
      rfl
  · rw [hcontroller, hx']
    split
    · next ho =>
      rw [ho, (perm_cons_of_getElem? hi).mem_iff, mem_cons]
      constructor
      · intro hj
        refine ⟨.inr hj, ?_⟩
        rintro rfl
        exact task_use_ne ((hF.sound _).excl q) hi hj rfl
      · rintro ⟨he | hj, hq⟩
        · cases he
          exact absurd rfl hq
        · exact hj
    · next ho =>
      refine (and_iff_left_of_imp fun _ => ?_).symm
      rintro rfl
      exact ho rfl
  · rw [hpart]
    exact Cluster.runJoinTask_other fun m hm => by cases hm.symm.trans hi

theorem disk_step (hci : 1 ≤ job.checkpointInterval) (hF : Flow job s.toControlPlane)
    (hsaved : ∀ n, Saved (job.spec n) (s.controller n).pc)
    (hsaved' : ∀ n, Saved (job.spec n) (s'.controller n).pc) (h : Disk job s)
    {e : CheckpointEvent} (hstep : step job s (n, e) = .ok s') : Disk job s' := by
  -- a task that goes on is one whose checkpoint has started
  have hsaving : ∀ {i p k}, s.checkpointAt n i = some (p, k) →
      job.owner p = n ∧ ∃ c, Saving job s p k c := by
    intro i p k hi
    have hmem := mem_of_getElem? (checkpointAt_mem hi)
    obtain rfl := Flow.owner_of_checkpoint hF hmem
    obtain ⟨c, hc⟩ := Option.isSome_iff_exists.mp ((h.started p k).mpr (.inr hmem))
    exact ⟨rfl, c, hmem, hc⟩
  simp only [step] at hstep
  split at hstep
  · next hn =>
    split at hstep
    · next i =>
      unfold execFetch at hstep
      split at hstep
      · next hi => exact h.otherTask hF hn hsaved' hi hstep
      · next p k hi =>
        split at hstep
        · next hw => exact h.endTask hci hF hn hsaved hi hw hstep
        · cases hstep
          exact h
    · next e he => exact h.quiet hsaved' (fun i hi => he i hi) hstep
    · next i =>
      cases hstep
      cases hi : s.checkpointAt n i with
      | none => exact h
      | some pk =>
        obtain ⟨rfl, c, hc⟩ := hsaving hi
        exact h.serialise hci hsaved hc
    · next i =>
      cases hstep
      cases hi : s.checkpointAt n i with
      | none => exact h
      | some pk =>
        obtain ⟨rfl, c, hc⟩ := hsaving hi
        exact h.write hci hsaved hc
  · cases hstep
    exact h

omit [LinearOrder K] in
theorem serialise_cluster (p k : Int) : (s.serialise job n p k).toCluster = s.toCluster ∧
    (s.serialise job n p k).cuts = s.cuts := by
  unfold serialise
  split
  · exact ⟨rfl, rfl⟩
  · split <;> exact ⟨rfl, rfl⟩
  · exact ⟨rfl, rfl⟩

omit [LinearOrder K] in
theorem write_cluster (p k : Int) : (s.write job n p k).toCluster = s.toCluster ∧
    (s.write job n p k).cuts = s.cuts := by
  unfold write
  split
  · split <;> exact ⟨rfl, rfl⟩
  · exact ⟨rfl, rfl⟩

/-- A step is one of the cluster, with the cuts that start then, or leaves it as it is. -/
theorem step_cluster {e : CheckpointEvent} (h : step job s (n, e) = .ok s') :
    (s'.toCluster = s.toCluster ∧ s'.cuts = s.cuts) ∨
      ∃ f, e = .cluster f ∧ n ∈ job.nodes ∧ s.toCluster.step job (n, f) = .ok s'.toCluster ∧
        s'.cuts = (record job { s with toCluster := s'.toCluster }).cuts := by
  have hmove : ∀ {t : Checkpointing K M O B} {f : ClusterEvent},
      t.toCluster = s.toCluster → t.cuts = s.cuts → t.stepCluster job n f = .ok s' →
      s.toCluster.step job (n, f) = .ok s'.toCluster ∧
        s'.cuts = (record job { s with toCluster := s'.toCluster }).cuts := by
    intro t f ht hcuts h
    obtain ⟨u, hu, h⟩ := bind_eq_ok.mp h
    cases h
    refine ⟨ht ▸ hu, ?_⟩
    show (fun p k => (t.cuts p k).or _) = fun p k => (s.cuts p k).or _
    rw [hcuts]
    rfl
  simp only [step] at h
  split at h
  · next hn =>
    split at h
    · next i =>
      unfold execFetch at h
      split at h
      · exact .inr ⟨_, rfl, hn, hmove rfl rfl h⟩
      · next p k hi =>
        split at h
        · exact .inr ⟨_, rfl, hn, hmove (t := s.setTask n p .waiting) rfl rfl h⟩
        · cases h
          exact .inl ⟨rfl, rfl⟩
    · exact .inr ⟨_, rfl, hn, hmove rfl rfl h⟩
    · next i =>
      cases h
      left
      cases s.checkpointAt n i with
      | none => exact ⟨rfl, rfl⟩
      | some pk => exact serialise_cluster pk.1 pk.2
    · next i =>
      cases h
      left
      cases s.checkpointAt n i with
      | none => exact ⟨rfl, rfl⟩
      | some pk => exact write_cluster pk.1 pk.2
  · cases h
    exact .inl ⟨rfl, rfl⟩

/-- **A run with checkpoints is a run of the cluster.** -/
theorem Reachable.cluster (hs : Reachable job files s) : Cluster.Reachable job s.toCluster := by
  refine Reach.induct (P := fun s : Checkpointing K M O B => Cluster.Reachable job s.toCluster)
    hs .refl fun t a u _ h _ hstep => ?_
  rcases step_cluster hstep with ⟨heq, -⟩ | ⟨f, -, -, hf, -⟩
  · rw [heq]
    exact h
  · exact .tail h trivial hf

theorem disk_reachable (hci : 1 ≤ job.checkpointInterval) (hs : Reachable job files s) :
    Disk job s := by
  refine Reach.induct (P := Disk job) hs (disk_init files) fun t a u ht h _ hstep => ?_
  have hF := (synced_reachable (Reachable.cluster ht).plane).1
  have hF' := (synced_reachable (Reachable.cluster (.tail ht trivial hstep)).plane).1
  exact disk_step hci hF (fun n => saved_reachIf hci (hF.runs n))
    (fun n => saved_reachIf hci (hF'.runs n)) h hstep

end Steps

/-! ## What the manager registers -/

section Registered

variable {job} [LinearOrder K] {s s' : ControlPlane K M B}

open ControlPlane PlanController

/-- What was reported to the manager is written, and so is what it has registered. -/
structure Backed (job : MapJoin K M O B) (s : ControlPlane K M B) : Prop where
  part : ∀ p ∈ job.updateParts, ∀ k, 1 ≤ k →
    k * job.checkpointInterval ≤ s.sched.update.part.val p →
      (p, k) ∈ (s.controller (job.owner p)).pc.checkpoints
  added : ∀ url ∈ s.sched.addedCps, ∃ k, 1 ≤ k ∧ url = ControlManager.cpUrl job.plan k ∧
    k * job.checkpointInterval ≤ s.sched.versions

omit [LinearOrder K] in
theorem backed_init (hci : 1 ≤ job.checkpointInterval) :
    Backed job (ControlPlane.init job : ControlPlane K M B) where
  part p _ k hk hle := by
    have h0 : (ControlPlane.init job : ControlPlane K M B).sched.update.part.val p = 0 := rfl
    have hmul : 1 * 1 ≤ k * job.checkpointInterval := Int.mul_le_mul hk hci (by omega) (by omega)
    omega
  added _ h := by cases h

omit [LinearOrder K] in
/-- A checkpoint is registered under the number of the version that was reached. -/
theorem rises_added (hci : 1 ≤ job.checkpointInterval) {t t' : ControlManager}
    (h0 : 0 ≤ t.versions) (hr : ControlManager.Rises job.plan t t') {url : String}
    (hurl : url ∈ t'.addedCps) : url ∈ t.addedCps ∨
      ∃ k, 1 ≤ k ∧ url = ControlManager.cpUrl job.plan k ∧
        k * job.checkpointInterval ≤ t'.versions := by
  rw [hr.addedCps] at hurl
  split at hurl
  · next hdue =>
    refine (mem_append.mp hurl).imp_right fun hurl => ⟨_, ?_, mem_singleton.mp hurl, ?_⟩
    all_goals
      have hmod : (t.versions + 1).tmod job.checkpointInterval = 0 := hdue.2
      have hdiv := Int.tdiv_mul_add_tmod (t.versions + 1) job.checkpointInterval
      rw [hmod] at hdiv
    · show 1 ≤ (t.versions + 1).tdiv job.checkpointInterval
      by_contra hlt
      have : (t.versions + 1).tdiv job.checkpointInterval * job.checkpointInterval ≤
          0 * job.checkpointInterval := Int.mul_le_mul_of_nonneg_right (by omega) (by omega)
      omega
    · show (t.versions + 1).tdiv job.checkpointInterval * job.checkpointInterval ≤ _
      rw [hr.versions]
      omega
  · exact .inl hurl

theorem backed_move {e : PlaneEvent} (hci : 1 ≤ job.checkpointInterval) (hF : Flow job s)
    (hsync : Synced job s) (h : Backed job s) (hm : ControlPlane.Move job s e s') :
    Backed job s' := by
  rcases move_sched hm with hsched | ⟨n, r, hr, hs, hpc⟩
  · refine ⟨fun p hp k hk hle => ?_, hsched ▸ h.added⟩
    have hmem := h.part p hp k hk (hsched ▸ hle)
    rcases move_pc hm (job.owner p) with hpc | ⟨a, ha, -⟩
    · rw [hpc]
      exact hmem
    · exact checkpoints_step ha hmem
  · have hrep := hF.report hr
    have hflag : r.flag ≠ .kFinishCP := by
      rintro hf
      rcases hrep with hf' | hf' | ⟨hf', -⟩ <;> cases hf'.symm.trans hf
    obtain ⟨-, hup⟩ := hsync.inv.control (job.node_mem _) job.path_ne (hF.report_known hr) hs
    refine ⟨fun p hp k hk hle => ?_, fun url hurl => ?_⟩
    · rw [hpc]
      rcases hup with ⟨hup, -⟩ | ⟨hf, -, hpart⟩
      · exact h.part p hp k hk (hup ▸ hle)
      · rw [hpart] at hle
        by_cases hq : p = r.partId
        · subst hq
          rw [update_self] at hle
          -- the version was reported after the checkpoint
          rcases mem_append.mp hr with hr | hr
          · obtain ⟨-, hown⟩ : r.partId ∈ job.updateParts ∧ job.owner r.partId = n := by
              rcases hrep with hf' | hf' | ⟨-, hloc, -⟩
              · cases hf'.symm.trans hf
              · cases hf'.symm.trans hf
              · exact hloc
            rw [hown]
            exact (saved_reachIf hci (hF.runs n)).reported r hr hf k hk hle
          · split at hr
            · rw [mem_singleton.mp hr] at hf
              cases hf
            · cases hr
        · rw [update_of_ne hq] at hle
          exact h.part p hp k hk hle
    · rcases ControlManager.control_cases hflag hs with ⟨hv, hadd, -⟩ | ⟨-, hrise⟩
      · rw [hadd] at hurl
        rw [hv]
        exact h.added url hurl
      · rcases rises_added hci hsync.inv.nonneg hrise hurl with hurl | hnew
        · obtain ⟨k, hk, rfl, hle⟩ := h.added url hurl
          refine ⟨k, hk, rfl, ?_⟩
          have := hrise.versions
          omega
        · exact hnew

theorem backed_reachable (hci : 1 ≤ job.checkpointInterval) (hs : ControlPlane.Reachable job s) :
    Backed job s :=
  (hs.induct (P := fun s => (Flow job s ∧ Synced job s) ∧ Backed job s)
    ⟨⟨flow_init, synced_init⟩, backed_init hci⟩ fun _ _ _ h hm =>
      ⟨⟨flow_move h.1.1 hm, synced_move h.1.1 h.1.2 hm⟩, backed_move hci h.1.1 h.1.2 h.2 hm⟩).2

/-- **A registered checkpoint is complete.**  The file of every partition is closed and holds the
partition as it was when its version was the one of the checkpoint; and while a partition is
being serialised and written no update of it has been given to the executor. -/
theorem registered_checkpoint_complete (job : MapJoin K M O B)
    (hci : 1 ≤ job.checkpointInterval) (files : String → Option (CheckpointFile K O))
    (s : Checkpointing K M O B) (hs : Reachable job files s) :
    (∀ k, ControlManager.cpUrl job.plan k ∈ s.sched.addedCps → ∀ p ∈ job.updateParts,
      ∃ c, s.cuts p k = some c ∧ c.version = k * job.checkpointInterval ∧
        s.files (getCheckpointUrl (ControlManager.cpUrl job.plan k) job.updateCollectionId p) =
          some ⟨c.contents.toBin, true⟩) ∧
    ∀ p, s.tasks (job.owner p) p ≠ .waiting →
      ∃ k c, .checkpoint p k ∈ (s.controller (job.owner p)).pc.fetchExecutor ∧
        s.cuts p k = some c ∧ s.partitions (job.owner p) p = c.contents ∧
        ∀ m, .join m ∈ (s.controller (job.owner p)).pc.fetchExecutor → m.partId ≠ p := by
  have hplane := hs.cluster.plane
  obtain ⟨hF, hsync⟩ := synced_reachable hplane
  have hD := disk_reachable hci hs
  have hB := backed_reachable hci hplane
  refine ⟨fun k hk p hp => ?_, fun p hp => ?_⟩
  · obtain ⟨j, hj, hurl, hle⟩ := hB.added _ hk
    obtain rfl : k = j := cpName_inj hurl
    have hmem := hB.part p hp k hj (hle.trans (hsync.inv.le p hp))
    obtain ⟨c, hc⟩ := Option.isSome_iff_exists.mp ((hD.started p k).mpr (.inl hmem))
    exact ⟨c, hc, hD.version p k c hc, hD.files p k c hc hmem⟩
  · obtain ⟨k, c, hsav⟩ := (hD.task p).saving hp
    exact ⟨k, c, hsav.1, hsav.2, hD.fixed p k c hsav,
      fun m hm => join_ne_of_checkpoint ((hF.sound _).excl p) hsav.1 hm⟩

/-- Every version of two nodes is saved. -/
def savedNodes (numIter staleness : Int) : MapJoin Int Int (Int × Int) Int :=
  { twoNodes (-1) numIter staleness (-1) with
    checkpointInterval := 1
    checkpointPath := "/cp"
    path_ne := fun _ => by decide }

/-- Both nodes map and update and save their partition. -/
def savedRound : List (Int × CheckpointEvent) :=
  let plane := fun (l : List (Int × PlaneEvent)) =>
    l.map fun a => (a.1, CheckpointEvent.cluster (.plane a.2))
  let save := fun n : Int =>
    List.replicate 6 (n, CheckpointEvent.serialise 0) ++ List.replicate 5 (n, .write 0) ++
      plane [(n, .execFetch 0), (n, .process 0), (n, .tell), (n, .tell)]
  plane [(1, .hear), (2, .hear), (1, .beginMap 0), (1, .endMap 0), (1, .process 0),
    (2, .beginMap 0), (2, .endMap 0), (2, .process 0), (1, .deliver 0), (1, .deliver 0),
    (2, .deliver 0), (2, .deliver 0), (1, .execFetch 0), (1, .process 0), (1, .execFetch 0),
    (1, .process 0), (2, .execFetch 0), (2, .process 0), (2, .execFetch 0), (2, .process 0)] ++
    save 1 ++ save 2

theorem registered_checkpoint_complete_savedRound :
    ∃ s c, run (step (savedNodes 1 0)) (init (savedNodes 1 0) fun _ => none) savedRound = .ok s ∧
      "/cp/cp-1" ∈ s.sched.addedCps ∧ s.cuts 1 1 = some c ∧ c.version = 1 ∧
      s.files "/cp/cp-1/c0-p1" = some ⟨c.contents.toBin, true⟩ := by
  have hrun : Ends (step (savedNodes 1 0)) (init (savedNodes 1 0) fun _ => none) savedRound fun s =>
      "/cp/cp-1" ∈ s.sched.addedCps := by decide +kernel
  obtain ⟨s, hs, hadd⟩ := hrun
  obtain ⟨c, hc, hver, hfile⟩ := (registered_checkpoint_complete (savedNodes 1 0) (by decide)
    (fun _ => none) s (reach_of_run savedRound hs)).1 1 hadd 1 (by decide)
  exact ⟨s, c, hs, hadd, hc, hver, hfile⟩

end Registered

end Checkpointing

end Tangram
