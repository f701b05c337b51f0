import Tangram.Scheduler.Recovery
import Tangram.Storage.Urls

/-!
# What a recovery restores

The scheduler of a program of plans, with the data: the contents of the
collections when the running plan started (`base`), and the files of the
checkpoints.  A plan changes the data in a fixed way (`Semantics`); a `Checkpoint`
plan and the interval checkpoints of a map-join write files, partition by
partition, while the plan runs.

`GetReadsAndCP` and `GetWritesAndCP` return the last checkpoint of a collection,
whatever happened to the collection since.  `known` follows a program and says
which checkpoint that is, and whether it holds the present contents;
`last_checkpoint_current` is the statement for the collections for which it does.
-/

namespace Tangram

open StepRun List Function Scheduler

/-! ## Plans and their data -/

/-- What plans do to data: the partitions of a collection, what a `Distribute` or `Load` plan puts
into them, and what an iteration of a map-join makes of the collection it updates. -/
structure Semantics (D : Type) where
  parts : Int → List Int
  make : Int → Int → D
  iterate : Int → (Int → Int → D) → Int → D

/-- The contents after `n` iterations of plan `pid`, which updates `cid`. -/
def Semantics.after {D : Type} (sem : Semantics D) (pid cid : Int) (base : Int → Int → D) :
    Nat → Int → Int → D
  | 0 => base
  | n + 1 =>
    Function.update (sem.after pid cid base n) cid (sem.iterate pid (sem.after pid cid base n))

theorem Semantics.after_of_ne {D : Type} (sem : Semantics D) {pid cid c : Int}
    (base : Int → Int → D) (hc : c ≠ cid) (n : Nat) : sem.after pid cid base n c = base c := by
  induction n with
  | zero => rfl
  | succ n ih =>
    rw [Semantics.after, update_of_ne hc]
    exact ih

namespace SpecWrapper

variable {δ : Type}

/-- The checkpoints that a plan writes, collection and url, in order. -/
def checkpoints (w : SpecWrapper String δ) : List (Int × String) :=
  match w.spec, w.getMapJoinSpec? with
  | .checkpoint s, _ => [(s.cid, s.url)]
  | _, some m =>
    if m.checkpointInterval = 0 then []
    else (List.range (m.numIter.tdiv m.checkpointInterval).toNat).map fun k : Nat =>
      (m.updateCollectionId, cpName m.checkpointPath (k + 1))
  | _, none => []

/-- The last checkpoint of `c` while the plan is at version `v`, given the last one before. -/
def lastCp (w : SpecWrapper String δ) (v c : Int) (old : Option String) : Option String :=
  match w.spec, w.getMapJoinSpec? with
  | .checkpoint s, _ => if s.cid = c then some s.url else old
  | _, some m =>
    if m.updateCollectionId = c ∧ m.checkpointInterval ≠ 0 ∧ m.checkpointInterval ≤ v then
      some (cpName m.checkpointPath (v.tdiv m.checkpointInterval))
    else old
  | _, none => old

/-- Whether the last checkpoint of `c` holds its contents after the plan, given whether it does
before. -/
def current (w : SpecWrapper String δ) (c : Int) (old : Bool) : Bool :=
  match w.spec, w.getMapJoinSpec? with
  | .distribute s, _ => old && s.collectionId ≠ c
  | .load s, _ => old && s.collectionId ≠ c
  | .checkpoint s, _ => old || s.cid = c
  | .loadCheckpoint s, _ => old || s.cid = c
  | _, some m =>
    if m.updateCollectionId = c then
      m.checkpointInterval ≠ 0 && m.numIter.tmod m.checkpointInterval = 0
    else old
  | _, none => old

/-- The number of iterations of a map-join. -/
def iters (w : SpecWrapper String δ) : Int := (w.getMapJoinSpec?.map (·.numIter)).getD 0

end SpecWrapper

structure Known where
  last : Option String
  current : Bool
deriving DecidableEq, Repr

/-- What is known of the last checkpoint of `c` after the plans. -/
def known {δ : Type} (c : Int) (plans : List (SpecWrapper String δ)) : Known :=
  plans.foldl (fun k w => ⟨w.lastCp w.iters c k.last, w.current c k.current⟩) ⟨none, false⟩

theorem known_concat {δ : Type} (c : Int) (plans : List (SpecWrapper String δ))
    (w : SpecWrapper String δ) : known c (plans ++ [w]) =
      ⟨w.lastCp w.iters c (known c plans).last, w.current c (known c plans).current⟩ := by
  unfold known
  rw [foldl_append]
  rfl

/-! ## The state -/

/-- `saved` has the number of the checkpoint and the partition for every file that the running
plan wrote. -/
structure Storage (δ D : Type) where
  sched : Scheduler δ
  base : Int → Int → D
  files : String → Option D
  saved : List (Nat × Int)

namespace Storage

variable {δ D : Type} (sem : Semantics D)

inductive Event (D : Type)
  | sched (a : Scheduler.Event)
  | save (k : Nat) (part : Int) (d : D)

/-- The plan that runs. -/
def running? (x : Storage δ D) : Option (Int × SpecWrapper String δ) :=
  match x.sched.status.getCurrentPlans with
  | [pid] => x.sched.specs[pid.toNat]?.map fun w => (pid, w)
  | _ => none

/-- The contents after the plan. -/
def finished (x : Storage δ D) (pid : Int) (w : SpecWrapper String δ) : Int → Int → D :=
  match w.spec, w.getMapJoinSpec? with
  | .distribute s, _ => Function.update x.base s.collectionId (sem.make pid)
  | .load s, _ => Function.update x.base s.collectionId (sem.make pid)
  | .loadCheckpoint s, _ => Function.update x.base s.cid fun p =>
      (x.files (getCheckpointUrl ((x.sched.status.lastCp.get? s.cid).getD "") s.cid p)).getD
        (x.base s.cid p)
  | _, some m => sem.after pid m.updateCollectionId x.base m.numIter.toNat
  | _, none => x.base

/-- What partition `p` of collection `c` holds when checkpoint `k` of the plan is written. -/
def due (x : Storage δ D) (pid : Int) (w : SpecWrapper String δ) (k : Nat) (c p : Int) : D :=
  match w.getMapJoinSpec? with
  | some m =>
    sem.after pid m.updateCollectionId x.base ((k + 1) * m.checkpointInterval).toNat c p
  | none => x.base c p

/-- With a `kFinishPlan` the data of the next plan is that after this one. -/
def handled (x : Storage δ D) (t : Scheduler δ) : Storage δ D :=
  match x.sched.mailbox, x.running? with
  | _ :: _, some (pid, w) => ⟨t, finished sem x pid w, x.files, []⟩
  | _, _ => { x with sched := t }

def write (x : Storage δ D) (k : Nat) (part : Int) (d : D) : Storage δ D :=
  match x.running?.bind fun r => r.2.checkpoints[k]? with
  | some (c, url) =>
    { x with
      files := Function.update x.files (getCheckpointUrl url c part) (some d)
      saved := (k, part) :: x.saved }
  | none => x

def step (x : Storage δ D) : Event D → Except SchedulerCheck (Storage δ D)
  | .sched .finishPlan => do
    let t ← x.sched.step .finishPlan
    return handled sem x t
  | .sched a => do
    let t ← x.sched.step a
    return { x with sched := t }
  | .save k part d => .ok (x.write k part d)

/-- The checkpoint that is due at version `v` is written. -/
def Complete (x : Storage δ D) (w : SpecWrapper String δ) (v : Int) : Prop :=
  ∀ m ∈ w.getMapJoinSpec?, m.checkpointInterval ≠ 0 → v.tmod m.checkpointInterval = 0 →
    ∀ p ∈ sem.parts m.updateCollectionId, ((v.tdiv m.checkpointInterval - 1).toNat, p) ∈ x.saved

/-- Without staleness a checkpoint is a cut between two iterations. -/
def Cut (w : SpecWrapper String δ) : Prop := ∀ m ∈ w.getMapJoinSpec?, m.staleness = 0

/-- What can happen while plan `pid` runs, before a recovery restores anything.  A report that
completes an iteration comes after the files of its checkpoint, and so does the answer of the
manager of a `Checkpoint` plan. -/
def AllowedIn (x : Storage δ D) (pid : Int) (w : SpecWrapper String δ) : Event D → Prop
  | .sched (.control ctrl) => w.isMapJoin = true ∧ ctrl.planId = pid ∧ ctrl.flag ≠ .kFinishCP ∧
      (ctrl.flag = .kJoin → (x.sched.control pid).hasCallback = true ∧
        (x.sched.control pid).versions < x.sched.expectedVersions pid ∧
        Complete sem x w ((x.sched.control pid).versions + 1)) ∧
      (ctrl.flag = .kFinish → .kTerminatePlan ∈ (x.sched.control pid).broadcasts)
  | .sched (.managerDone id) => id = pid ∧ w.isMapJoin = false ∧ x.sched.mailbox = [] ∧
      ∀ t ∈ w.checkpoints, ∀ p ∈ sem.parts t.1, (0, p) ∈ x.saved
  | .sched (.recovery deadNodes) => w.isMapJoin = true ∧ (x.sched.control pid).hasCallback = true ∧
      x.sched.lostWriteCollection deadNodes x.sched.status.getWrites = .ok true
  | .sched (.answer _) => False
  | .sched .finishPlan => True
  | .save k p d => ∃ t ∈ w.checkpoints[k]?, p ∈ sem.parts t.1 ∧
      (Cut w → d = due sem x pid w k t.1 p)

def Allowed (x : Storage δ D) (a : Event D) : Prop :=
  x.sched.recover.started = false ∧ ∃ r ∈ x.running?, x.AllowedIn sem r.1 r.2 a

instance (x : Storage δ D) (w : SpecWrapper String δ) (v : Int) : Decidable (Complete sem x w v) :=
  inferInstanceAs (Decidable (∀ m ∈ w.getMapJoinSpec?, _))

instance (w : SpecWrapper String δ) : Decidable (Cut w) :=
  inferInstanceAs (Decidable (∀ m ∈ w.getMapJoinSpec?, _))

instance [DecidableEq D] (x : Storage δ D) (pid : Int) (w : SpecWrapper String δ) :
    (a : Event D) → Decidable (x.AllowedIn sem pid w a)
  | .sched (.control _) => inferInstanceAs (Decidable (_ ∧ _ ∧ _ ∧ (_ → _ ∧ _ ∧ _) ∧ (_ → _)))
  | .sched (.managerDone _) => inferInstanceAs (Decidable (_ ∧ _ ∧ _ ∧ ∀ t ∈ w.checkpoints, _))
  | .sched (.recovery _) => inferInstanceAs (Decidable (_ ∧ _ ∧ _))
  | .sched (.answer _) => inferInstanceAs (Decidable False)
  | .sched .finishPlan => inferInstanceAs (Decidable True)
  | .save k _ _ => inferInstanceAs (Decidable (∃ t ∈ w.checkpoints[k]?, _ ∧ (_ → _)))

instance [DecidableEq D] (x : Storage δ D) (a : Event D) : Decidable (x.Allowed sem a) :=
  inferInstanceAs (Decidable (_ ∧ ∃ r ∈ x.running?, _))

end Storage

/-- A program of plans as the drivers build them. -/
structure Program {δ : Type} (plans : List (SpecWrapper String δ)) : Prop where
  ids : ∀ (i : Nat) (w : SpecWrapper String δ), plans[i]? = some w → w.id = i
  types : ∀ w ∈ plans, w.type = w.spec.type
  noWrite : ∀ w ∈ plans, w.type ≠ .kWrite
  iters : ∀ w ∈ plans, ∀ m ∈ w.getMapJoinSpec?, 1 ≤ m.numIter ∧ 0 ≤ m.checkpointInterval

/-- No two plans write the same checkpoint, checkpoints in between are taken without staleness,
and the ids do not reach those of second launches. -/
structure Careful {δ : Type} (plans : List (SpecWrapper String δ)) : Prop where
  apart : plans.Pairwise fun w w' => ∀ t ∈ w.checkpoints, t ∉ w'.checkpoints
  cut : ∀ w ∈ plans, ∀ m ∈ w.getMapJoinSpec?, m.checkpointInterval ≠ 0 → m.staleness = 0
  short : plans.length ≤ kRecoverMagic

/-- The scheduler before the first plan. -/
structure Fresh {δ : Type} (s : Scheduler δ) (plans : List (SpecWrapper String δ)) : Prop where
  specs : s.specs = plans
  count : s.runner.planCount = 0
  status : s.status = .empty
  mailbox : s.mailbox = []
  started : s.recover.started = false

/-! ## Checkpoints of a plan -/

variable {old : Option String} {c : Int}

namespace SpecWrapper

variable {δ : Type} {w : SpecWrapper String δ} {m : MapJoinSpec String}

theorem spec_of_mapJoin (hm : w.getMapJoinSpec? = some m) :
    w.spec = .mapJoin m ∨ ∃ m', w.spec = .mapWithJoin m' ∧ m'.toMapJoinSpec = m := by
  unfold getMapJoinSpec? at hm
  split at hm
  · next s hs => exact .inl (by rw [hs, Option.some.inj hm])
  · next s hs => exact .inr ⟨s, hs, Option.some.inj hm⟩
  · cases hm

theorem checkpoints_mapJoin (hm : w.getMapJoinSpec? = some m) : w.checkpoints =
    if m.checkpointInterval = 0 then []
    else (List.range (m.numIter.tdiv m.checkpointInterval).toNat).map fun k : Nat =>
      (m.updateCollectionId, cpName m.checkpointPath (k + 1)) := by
  unfold checkpoints
  rcases spec_of_mapJoin hm with hs | ⟨m', hs, -⟩ <;> rw [hs, hm]

theorem lastCp_mapJoin (hm : w.getMapJoinSpec? = some m) (v c : Int) (old : Option String) :
    w.lastCp v c old =
      if m.updateCollectionId = c ∧ m.checkpointInterval ≠ 0 ∧ m.checkpointInterval ≤ v then
        some (cpName m.checkpointPath (v.tdiv m.checkpointInterval))
      else old := by
  unfold lastCp
  rcases spec_of_mapJoin hm with hs | ⟨m', hs, -⟩ <;> rw [hs, hm]

theorem current_mapJoin (hm : w.getMapJoinSpec? = some m) (c : Int) (old : Bool) :
    w.current c old =
      if m.updateCollectionId = c then
        (m.checkpointInterval ≠ 0 && m.numIter.tmod m.checkpointInterval = 0 : Bool)
      else old := by
  unfold current
  rcases spec_of_mapJoin hm with hs | ⟨m', hs, -⟩ <;> rw [hs, hm]

theorem iters_mapJoin (hm : w.getMapJoinSpec? = some m) : w.iters = m.numIter := by
  unfold iters
  rw [hm]
  rfl

theorem getElem?_checkpoints_mapJoin (hm : w.getMapJoinSpec? = some m) {k : Nat} {t : Int × String} :
    w.checkpoints[k]? = some t ↔ m.checkpointInterval ≠ 0 ∧
      k < (m.numIter.tdiv m.checkpointInterval).toNat ∧
      t = (m.updateCollectionId, cpName m.checkpointPath (k + 1)) := by
  rw [checkpoints_mapJoin hm]
  split
  · next h0 => simp [h0]
  · next h0 =>
    rw [List.getElem?_map, Option.map_eq_some_iff]
    constructor
    · rintro ⟨k', hk, rfl⟩
      obtain ⟨hlt, rfl⟩ := List.getElem?_eq_some_iff.mp hk
      rw [length_range] at hlt
      exact ⟨h0, hlt, by simp⟩
    · rintro ⟨-, hk, rfl⟩
      exact ⟨k, List.getElem?_range hk, rfl⟩

/-- A plan writes a checkpoint once. -/
theorem checkpoints_inj {k k' : Nat} {t : Int × String} (hk : w.checkpoints[k]? = some t)
    (hk' : w.checkpoints[k']? = some t) : k = k' := by
  cases hm : w.getMapJoinSpec? with
  | some m =>
    obtain ⟨-, -, rfl⟩ := (getElem?_checkpoints_mapJoin hm).mp hk
    obtain ⟨-, -, ht⟩ := (getElem?_checkpoints_mapJoin hm).mp hk'
    have := cpName_inj (Prod.ext_iff.mp ht).2
    omega
  | none =>
    have hlen : w.checkpoints.length ≤ 1 := by
      unfold checkpoints
      rw [hm]
      split
      · exact le_refl 1
      · next heq _ => cases heq
      · exact Nat.zero_le 1
    have h₁ := (List.getElem?_eq_some_iff.mp hk).1
    have h₂ := (List.getElem?_eq_some_iff.mp hk').1
    omega

/-- The last checkpoint is one of before or one of the plan. -/
theorem lastCp_mem {v c : Int} {url : String}
    (hci : ∀ m ∈ w.getMapJoinSpec?, 0 ≤ m.checkpointInterval ∧ v ≤ m.numIter)
    (h : w.lastCp v c old = some url) : old = some url ∨ (c, url) ∈ w.checkpoints := by
  cases hm : w.getMapJoinSpec? with
  | some m =>
    rw [lastCp_mapJoin hm] at h
    split at h
    · next hc =>
      obtain ⟨hc, h0, hle⟩ := hc
      obtain ⟨hnn, hv⟩ := hci m hm
      cases Option.some.inj h
      have hpos : 1 ≤ v.tdiv m.checkpointInterval := by
        rw [Int.tdiv_eq_ediv_of_nonneg (by omega)]
        exact (Int.le_ediv_iff_mul_le (by omega)).mpr (by omega)
      have hle : v.tdiv m.checkpointInterval ≤ m.numIter.tdiv m.checkpointInterval := by
        rw [Int.tdiv_eq_ediv_of_nonneg (by omega), Int.tdiv_eq_ediv_of_nonneg (by omega)]
        exact Int.ediv_le_ediv (by omega) hv
      right
      refine mem_of_getElem? ((getElem?_checkpoints_mapJoin hm
        (k := (v.tdiv m.checkpointInterval - 1).toNat)).mpr ⟨h0, by omega, ?_⟩)
      rw [hc]
      congr 2
      omega
    · exact .inl h
  | none =>
    unfold lastCp at h
    rw [hm] at h
    split at h
    · next s hs =>
      split at h
      · next hc =>
        cases Option.some.inj h
        right
        unfold checkpoints
        rw [hs, hm, ← hc]
        exact mem_singleton_self _
      · exact .inl h
    · next heq _ => cases heq
    · exact .inl h

end SpecWrapper

theorem known_last_mem {δ : Type} {plans : List (SpecWrapper String δ)}
    (hci : ∀ w ∈ plans, ∀ m ∈ w.getMapJoinSpec?, 1 ≤ m.numIter ∧ 0 ≤ m.checkpointInterval)
    {url : String} (h : (known c plans).last = some url) :
    ∃ w ∈ plans, (c, url) ∈ w.checkpoints := by
  induction plans using List.reverseRecOn with
  | nil => cases h
  | append_singleton plans w ih =>
    rw [known_concat] at h
    have hw : ∀ m ∈ w.getMapJoinSpec?, 0 ≤ m.checkpointInterval ∧ w.iters ≤ m.numIter := by
      intro m hm
      rw [SpecWrapper.iters_mapJoin hm]
      exact ⟨(hci w (by simp) m hm).2, le_refl _⟩
    rcases SpecWrapper.lastCp_mem hw h with h | h
    · obtain ⟨w', hw', hmem⟩ := ih (fun w' hw' => hci w' (by simp [hw'])) h
      exact ⟨w', by simp [hw'], hmem⟩
    · exact ⟨w, by simp, h⟩

/-! ## The invariant -/

namespace Storage

variable {δ D : Type} (sem : Semantics D) (plans : List (SpecWrapper String δ))

/-- The files of the last checkpoints after `i` plans. -/
structure Held (i : Nat) (base : Int → Int → D) (files : String → Option D) : Prop where
  exist : ∀ c url, (known c (plans.take i)).last = some url →
    ∀ p ∈ sem.parts c, (files (getCheckpointUrl url c p)).isSome = true
  current : ∀ c, (known c (plans.take i)).current = true →
    ∃ url, (known c (plans.take i)).last = some url ∧
      ∀ p ∈ sem.parts c, files (getCheckpointUrl url c p) = some (base c p)

/-- `i` plans are done, and no other has started. -/
structure Boundary (i : Nat) (x : Storage δ D) : Prop where
  specs : x.sched.specs = plans
  count : x.sched.runner.planCount = i
  inv : x.sched.status.Inv
  idle : x.sched.status.getCurrentPlans = []
  last : ∀ c, x.sched.status.lastCp.get? c = (known c (plans.take i)).last
  held : Held sem plans i x.base x.files
  started : x.sched.recover.started = false
  mailbox : x.sched.mailbox = []
  saved : x.saved = []

/-- A map-join is on its way to its end, or to be aborted. -/
def Live (m : MapJoinSpec String) (s : Scheduler δ) (pid : Int) : Prop :=
  Account.Going m s pid m.numIter ∨
    (Account.Launched m s pid m.numIter ∧ (∃ dead, s.callbacks pid = .recover dead) ∧
      (s.control pid).hasCallback = true ∧ s.mailbox = [])

/-- Plan `i` runs. -/
structure Runs (i : Nat) (w : SpecWrapper String δ) (x : Storage δ D) : Prop where
  specs : x.sched.specs = plans
  plan : plans[i]? = some w
  count : x.sched.runner.planCount = i
  inv : x.sched.status.Inv
  current : x.sched.status.getCurrentPlans = [(i : Int)]
  rw : x.sched.status.rw i = w.getReadWrite
  last : ∀ c, x.sched.status.lastCp.get? c =
    w.lastCp (x.sched.control i).versions c (known c (plans.take i)).last
  loaded : ∀ s, w.spec = .loadCheckpoint s → (x.sched.status.lastCp.get? s.cid).isSome = true
  held : Held sem plans i x.base x.files
  saves : ∀ k p t, (k, p) ∈ x.saved → w.checkpoints[k]? = some t →
    x.files (getCheckpointUrl t.2 t.1 p) = some (due sem x i w k t.1 p)
  started : x.sched.recover.started = false
  live : ∀ m ∈ w.getMapJoinSpec?, Live m x.sched i
  added : ∀ m ∈ w.getMapJoinSpec?, m.checkpointInterval ≠ 0 →
    m.checkpointInterval ≤ (x.sched.control i).versions → ∀ p ∈ sem.parts m.updateCollectionId,
      (((x.sched.control i).versions.tdiv m.checkpointInterval - 1).toNat, p) ∈ x.saved
  other : w.getMapJoinSpec? = none → x.sched.mailbox = [] ∨ (x.sched.mailbox = [(i : Int)] ∧
    ∀ t ∈ w.checkpoints, ∀ p ∈ sem.parts t.1, (0, p) ∈ x.saved)

variable {sem plans} {x : Storage δ D} {s' : Scheduler δ} {i : Nat} {w : SpecWrapper String δ}

theorem isMapJoin_iff (ht : w.type = w.spec.type) :
    w.isMapJoin = true ↔ ∃ m, w.getMapJoinSpec? = some m := by
  unfold SpecWrapper.isMapJoin SpecWrapper.getMapJoinSpec?
  rw [ht]
  cases w.spec <;> simp [SpecWrapper.Spec.type]

theorem running?_eq (hr : Runs sem plans i w x) : x.running? = some ((i : Int), w) := by
  unfold running?
  rw [hr.current]
  show Option.map _ x.sched.specs[((i : Int)).toNat]? = _
  rw [hr.specs, Int.toNat_natCast, hr.plan]
  rfl

/-! ### A plan starts -/

theorem getReadWrite_spec (w : SpecWrapper String δ) : w.getReadWrite.second.Nodup ∧
    ∀ c ∈ w.getReadWrite.second, c ∉ w.getReadWrite.first := by
  unfold SpecWrapper.getReadWrite
  cases w.spec with
  | mapJoin m =>
    simp only [SpecWrapper.Spec.getReadWrite, MapJoinSpec.getReadWrite]
    split
    · simp
    · next hne => simpa using Ne.symm hne
  | mapWithJoin m =>
    simp only [SpecWrapper.Spec.getReadWrite, MapWithJoinSpec.getReadWrite]
    split <;> split <;> simp_all [eq_comm]
  | _ => simp [SpecWrapper.Spec.getReadWrite]

/-- What `AddPlan` leaves when nothing else runs. -/
theorem addPlan_idle {status status' : CollectionStatus} (hinv : status.Inv)
    (hidle : status.getCurrentPlans = []) {pid : Int}
    (hadd : status.addPlan pid w.getReadWrite = .ok status') :
    status'.Inv ∧ status'.getCurrentPlans = [pid] ∧ status'.rw pid = w.getReadWrite ∧
      status'.lastCp = status.lastCp := by
  obtain ⟨hnd, hself⟩ := getReadWrite_spec w
  have hnone : ∀ id, id ∉ status.curPlans.keys := by
    intro id hid
    have hmem : id ∈ status.getCurrentPlans := hid
    rw [hidle] at hmem
    cases hmem
  obtain ⟨s₁, hs₁, hinv₁, hcur, hlast⟩ := CollectionStatus.addPlan_ok hinv (hnone pid) hnd hself
    (fun id hid => absurd hid (hnone id))
  cases Except.ok.inj (hs₁.symm.trans hadd)
  refine ⟨hinv₁, CollectionStatus.getCurrentPlans_set _ hidle hcur, ?_, hlast⟩
  unfold CollectionStatus.rw
  rw [hcur, CollectionStatus.rw_set, if_pos rfl]

theorem lastCp_other {v v' c : Int} (hm : w.getMapJoinSpec? = none) :
    w.lastCp v c old = w.lastCp v' c old := by
  unfold SpecWrapper.lastCp
  rw [hm]
  cases w.spec <;> rfl

/-- The plan that is next in the program is started. -/
theorem Boundary.runs (h : Boundary sem plans i x) (hp : Program plans)
    (hrun : x.sched.runPlan i = .ok s') : ∃ w, Runs sem plans i w { x with sched := s' } := by
  obtain ⟨-, w, status, hw, hadd, hd⟩ := runPlan_cases hrun
  rw [h.specs, Int.toNat_natCast] at hw
  obtain ⟨hinv, hcur, hrw, hlast⟩ := addPlan_idle h.inv h.idle hadd
  have hmem := mem_of_getElem? hw
  have ht := hp.types w hmem
  have hsaved : ∀ k p, (k, p) ∉ x.saved := by
    intro k p hk
    rw [h.saved] at hk
    cases hk
  refine ⟨w, ?_⟩
  cases hm : w.getMapJoinSpec? with
  | some m =>
    have hmj := (isMapJoin_iff ht).mpr ⟨m, hm⟩
    obtain ⟨hiters, hci⟩ := hp.iters w hmem m hm
    have hid := hp.ids i w hw
    rw [dispatch_of_isMapJoin _ hmj] at hd
    obtain ⟨-, m', hm', rfl⟩ := controlRunPlan_cases hd
    cases Option.some.inj (hm.symm.trans hm')
    have hgo := Account.going_launch (s := { x.sched with status := status }) hm rfl rfl rfl
      (by omega) h.started h.mailbox
    rw [hid] at hgo
    have hv : ((launch { x.sched with status := status } w m).control i).versions = 0 := by
      rw [← hid]
      simp [launch]
    have hnot : ¬ (m.checkpointInterval ≠ 0 ∧ m.checkpointInterval ≤ 0) := by omega
    refine ⟨h.specs, hw, h.count, hinv, hcur, hrw, fun c => ?_, fun s hs => ?_, h.held,
      fun k p t hk => absurd hk (hsaved k p), h.started, fun m' hm' => ?_, fun m' hm' h0 hle => ?_,
      fun hno => ?_⟩
    · show status.lastCp.get? c = _
      rw [hv, SpecWrapper.lastCp_mapJoin hm, if_neg fun hc => hnot hc.2, hlast]
      exact h.last c
    · rcases SpecWrapper.spec_of_mapJoin hm with hs' | ⟨_, hs', -⟩ <;> rw [hs'] at hs <;> cases hs
    · cases Option.some.inj (hm.symm.trans hm')
      exact .inl hgo
    · cases Option.some.inj (hm.symm.trans hm')
      rw [hv] at hle
      exact absurd ⟨h0, hle⟩ hnot
    · rw [hm] at hno
      cases hno
  | none =>
    -- the manager of the plan only touches the last checkpoints
    have hst : ∃ l, s' = { x.sched with status := { status with lastCp := l } } ∧
        (∀ c, l.get? c = w.lastCp 0 c (known c (plans.take i)).last) ∧
        ∀ s, w.spec = .loadCheckpoint s → (l.get? s.cid).isSome = true := by
      have hlast' : ∀ c, status.lastCp.get? c = (known c (plans.take i)).last := by
        intro c
        rw [hlast]
        exact h.last c
      have hnw := hp.noWrite w hmem
      unfold dispatch at hd
      unfold SpecWrapper.lastCp
      rw [hm]
      rw [ht] at hd hnw
      cases hs : w.spec with
      | mapJoin m | mapWithJoin m =>
        unfold SpecWrapper.getMapJoinSpec? at hm
        rw [hs] at hm
        cases hm
      | write s =>
        rw [hs] at hnw
        exact absurd rfl hnw
      | distribute s | load s =>
        rw [hs] at hd
        cases hd
        exact ⟨status.lastCp, rfl, hlast', fun s hs => by cases hs⟩
      | checkpoint s =>
        rw [hs] at hd
        cases hd
        refine ⟨status.lastCp.set s.cid s.url, rfl, fun c => ?_, fun s hs => by cases hs⟩
        rw [OrdMap.get?_set, hlast' c]
        exact if_congr eq_comm rfl rfl
      | loadCheckpoint s =>
        rw [hs] at hd
        obtain ⟨url, hurl, hd⟩ := bind_eq_ok.mp hd
        cases hd
        refine ⟨status.lastCp, rfl, hlast', fun s' hs' => ?_⟩
        cases hs'
        have hget := mapError_eq_ok.mp hurl
        unfold CollectionStatus.getLastCP at hget
        split at hget
        · cases hget
        · next url hu => rw [hu]; rfl
    obtain ⟨l, rfl, hlast', hloaded⟩ := hst
    refine ⟨h.specs, hw, h.count, ⟨hinv.reads, hinv.readKeys, hinv.writes, hinv.nodup,
      hinv.disjoint⟩, hcur, hrw, fun c => ?_, hloaded, h.held,
      fun k p t hk => absurd hk (hsaved k p), h.started, fun m' hm' => ?_, fun m' hm' => ?_,
      fun _ => .inl h.mailbox⟩
    · rw [lastCp_other hm]
      exact hlast' c
    · rw [hm] at hm'
      cases hm'
    · rw [hm] at hm'
      cases hm'

theorem Boundary.tryRun (h : Boundary sem plans i x) (hp : Program plans)
    (hrun : x.sched.tryRunPlan = .ok s') :
    s'.status.getCurrentPlans = [] ∨ ∃ w, Runs sem plans i w { x with sched := s' } := by
  rcases tryRunPlan_cases hrun with rfl | hrun
  · exact .inl h.idle
  · rw [h.count] at hrun
    exact .inr (h.runs hp hrun)

/-! ### A plan ends -/

theorem take_succ (hw : plans[i]? = some w) : plans.take (i + 1) = plans.take i ++ [w] := by
  rw [take_add_one, hw]
  rfl

/-- An iteration count that is a multiple of the interval is reached by its last checkpoint. -/
theorem tdiv_mul_of_tmod {n ci : Int} (h : n.tmod ci = 0) : n.tdiv ci * ci = n := by
  have := Int.mul_tdiv_add_tmod n ci
  rw [h, Int.mul_comm] at this
  omega

/-- The contents after the plan, where the plan is done and its files are there. -/
theorem Runs.held_next (h : Runs sem plans i w x) (hp : Program plans) (hv : ∀ m ∈ w.getMapJoinSpec?,
    (x.sched.control i).versions = m.numIter)
    (hdone : w.getMapJoinSpec? = none → ∀ t ∈ w.checkpoints, ∀ p ∈ sem.parts t.1, (0, p) ∈ x.saved) :
    Held sem plans (i + 1) (finished sem x i w) x.files := by
  have hmem := mem_of_getElem? h.plan
  have hknown : ∀ c, known c (plans.take (i + 1)) =
      ⟨w.lastCp w.iters c (known c (plans.take i)).last, w.current c (known c (plans.take i)).current⟩ :=
    fun c => by rw [take_succ h.plan, known_concat]
  cases hm : w.getMapJoinSpec? with
  | some m =>
    obtain ⟨hiters, hci⟩ := hp.iters w hmem m hm
    have hvm := hv m hm
    have hfin : finished sem x i w = sem.after i m.updateCollectionId x.base m.numIter.toNat := by
      unfold finished
      rcases SpecWrapper.spec_of_mapJoin hm with hs | ⟨_, hs, -⟩ <;> rw [hs, hm]
    -- the files of the last interval checkpoint
    have hfile : m.checkpointInterval ≠ 0 → m.checkpointInterval ≤ m.numIter →
        ∀ p ∈ sem.parts m.updateCollectionId,
          x.files (getCheckpointUrl (cpName m.checkpointPath (m.numIter.tdiv m.checkpointInterval))
            m.updateCollectionId p) =
          some (sem.after i m.updateCollectionId x.base
            (m.numIter.tdiv m.checkpointInterval * m.checkpointInterval).toNat
            m.updateCollectionId p) := by
      intro h0 hle p hpart
      have hpos : 1 ≤ m.numIter.tdiv m.checkpointInterval := by
        rw [Int.tdiv_eq_ediv_of_nonneg (by omega)]
        exact (Int.le_ediv_iff_mul_le (by omega)).mpr (by omega)
      have hsaved := h.added m hm h0 (by rw [hvm]; exact hle) p hpart
      rw [hvm] at hsaved
      have hidx : (((m.numIter.tdiv m.checkpointInterval - 1).toNat : Nat) : Int) + 1 =
          m.numIter.tdiv m.checkpointInterval := by omega
      have hget := h.saves _ p _ hsaved ((SpecWrapper.getElem?_checkpoints_mapJoin hm).mpr
        ⟨h0, by omega, rfl⟩)
      unfold due at hget
      rw [hm] at hget
      simp only [hidx] at hget
      exact hget
    constructor
    · intro c url hlast p hpart
      rw [hknown, SpecWrapper.iters_mapJoin hm] at hlast
      dsimp only at hlast
      rw [SpecWrapper.lastCp_mapJoin hm] at hlast
      split at hlast
      · next hc =>
        obtain ⟨rfl, h0, hle⟩ := hc
        cases Option.some.inj hlast
        rw [hfile h0 hle p hpart]
        rfl
      · exact h.held.exist c url hlast p hpart
    · intro c hcur
      rw [hknown] at hcur ⊢
      dsimp only at hcur ⊢
      rw [SpecWrapper.current_mapJoin hm] at hcur
      rw [SpecWrapper.iters_mapJoin hm, SpecWrapper.lastCp_mapJoin hm, hfin]
      split at hcur
      · next hc =>
        subst hc
        simp only [Bool.and_eq_true, decide_eq_true_eq] at hcur
        obtain ⟨h0, hmod⟩ := hcur
        have hround := tdiv_mul_of_tmod hmod
        have hle : m.checkpointInterval ≤ m.numIter :=
          Int.le_of_dvd (by omega) (Int.dvd_of_tmod_eq_zero hmod)
        rw [if_pos ⟨rfl, h0, hle⟩]
        refine ⟨_, rfl, fun p hpart => ?_⟩
        rw [hfile h0 hle p hpart, hround]
      · next hc =>
        rw [if_neg fun hboth => hc hboth.1]
        obtain ⟨url, hurl, hfiles⟩ := h.held.current c hcur
        refine ⟨url, hurl, fun p hpart => ?_⟩
        rw [sem.after_of_ne x.base (Ne.symm hc)]
        exact hfiles p hpart
  | none =>
    -- a plan that leaves the last checkpoints as they are, and changes only collection `cid`
    have hmake : ∀ cid d, (∀ c old, w.lastCp w.iters c old = old) →
        (∀ c old, w.current c old = (old && cid ≠ c)) →
        finished sem x i w = update x.base cid d →
        Held sem plans (i + 1) (finished sem x i w) x.files := by
      intro cid d hlast hcur hfin
      constructor
      · intro c url hurl
        rw [hknown, hlast] at hurl
        exact h.held.exist c url hurl
      · intro c hc
        rw [hknown, hcur] at hc
        simp only [Bool.and_eq_true, decide_eq_true_eq] at hc
        obtain ⟨url, hurl, hfiles⟩ := h.held.current c hc.1
        refine ⟨url, by rw [hknown, hlast]; exact hurl, fun p hpart => ?_⟩
        rw [hfin, update_of_ne (Ne.symm hc.2)]
        exact hfiles p hpart
    cases hs : w.spec with
    | mapJoin m | mapWithJoin m =>
      unfold SpecWrapper.getMapJoinSpec? at hm
      rw [hs] at hm
      cases hm
    | write s =>
      have hnw := hp.noWrite w hmem
      rw [hp.types w hmem, hs] at hnw
      exact absurd rfl hnw
    | distribute s | load s =>
      refine hmake s.collectionId (sem.make i) (fun c old => ?_) (fun c old => ?_) ?_
      · simp only [SpecWrapper.lastCp, hs, hm]
      · simp only [SpecWrapper.current, hs]
      · simp only [finished, hs]
    | checkpoint s =>
      have hfin : finished sem x i w = x.base := by simp only [finished, hs, hm]
      have hcps : w.checkpoints = [(s.cid, s.url)] := by simp only [SpecWrapper.checkpoints, hs]
      have hfile : ∀ p ∈ sem.parts s.cid,
          x.files (getCheckpointUrl s.url s.cid p) = some (x.base s.cid p) := by
        intro p hpart
        have hsaved := hdone hm (s.cid, s.url) (by rw [hcps]; exact mem_singleton_self _) p hpart
        have hget := h.saves 0 p (s.cid, s.url) hsaved (by rw [hcps]; rfl)
        unfold due at hget
        rw [hm] at hget
        exact hget
      have hlast : ∀ c old, w.lastCp w.iters c old = if s.cid = c then some s.url else old :=
        fun c old => by simp only [SpecWrapper.lastCp, hs]
      have hcurrent : ∀ c old, w.current c old = (old || s.cid = c) :=
        fun c old => by simp only [SpecWrapper.current, hs]
      constructor
      · intro c url hurl p hpart
        rw [hknown, hlast] at hurl
        dsimp only at hurl
        split at hurl
        · next hc =>
          subst hc
          cases Option.some.inj hurl
          rw [hfile p hpart]
          rfl
        · exact h.held.exist c url hurl p hpart
      · intro c hc
        rw [hknown, hcurrent] at hc
        rw [hknown, hlast, hfin]
        dsimp only
        split
        · next hcid =>
          subst hcid
          exact ⟨s.url, rfl, hfile⟩
        · next hne =>
          simp only [hne, decide_false, Bool.or_false] at hc
          exact h.held.current c hc
    | loadCheckpoint s =>
      have hlast : ∀ v c old, w.lastCp v c old = old :=
        fun v c old => by simp only [SpecWrapper.lastCp, hs, hm]
      have hcurrent : ∀ c old, w.current c old = (old || s.cid = c) :=
        fun c old => by simp only [SpecWrapper.current, hs]
      constructor
      · intro c url hurl
        rw [hknown, hlast] at hurl
        exact h.held.exist c url hurl
      · intro c hc
        rw [hknown, hcurrent] at hc
        rw [hknown, hlast]
        dsimp only
        by_cases hcid : c = s.cid
        · subst hcid
          have hsome := h.loaded s hs
          have hget := h.last s.cid
          rw [hlast] at hget
          obtain ⟨url, hurl⟩ := Option.isSome_iff_exists.mp hsome
          refine ⟨url, by rw [← hget, hurl], fun p hpart => ?_⟩
          have hex := h.held.exist s.cid url (by rw [← hget, hurl]) p hpart
          obtain ⟨d, hd⟩ := Option.isSome_iff_exists.mp hex
          simp only [finished, hs, update_self, hurl, Option.getD_some, hd]
        · simp only [Ne.symm hcid, decide_false, Bool.or_false] at hc
          obtain ⟨url, hurl, hfiles⟩ := h.held.current c hc
          refine ⟨url, hurl, fun p hpart => ?_⟩
          simp only [finished, hs, update_of_ne hcid]
          exact hfiles p hpart

theorem getCurrentPlans_mem {status : CollectionStatus} {pid : Int}
    (h : status.getCurrentPlans = [pid]) : pid ∈ status.curPlans.keys := by
  show pid ∈ status.getCurrentPlans
  rw [h]
  exact mem_singleton_self _

/-- The `kFinishPlan` of the running plan is handled. -/
theorem Runs.finish (h : Runs sem plans i w x) (hp : Program plans) (hshort : plans.length ≤ kRecoverMagic)
    (hm : x.sched.mailbox = [(i : Int)])
    (hv : ∀ m ∈ w.getMapJoinSpec?, (x.sched.control i).versions = m.numIter)
    (hs : x.sched.finishPlan = .ok s') :
    s'.status.getCurrentPlans = [] ∨
      ∃ w', Runs sem plans (i + 1) w' ⟨s', finished sem x i w, x.files, []⟩ := by
  have hlt := (List.getElem?_eq_some_iff.mp h.plan).1
  obtain ⟨runner, status, -, hcount, hst, hrun⟩ := finishPlan_cases hs hm
  rw [Account.getRealId_of_lt (by omega)] at hst
  obtain ⟨s₁, hs₁, hinv, hcur, hlast⟩ := CollectionStatus.finishPlan_ok h.inv
    (getCurrentPlans_mem h.current)
  cases Except.ok.inj (hs₁.symm.trans hst)
  have hknown : ∀ c, (known c (plans.take (i + 1))).last =
      w.lastCp w.iters c (known c (plans.take i)).last :=
    fun c => by rw [take_succ h.plan, known_concat]
  have hb : Boundary sem plans (i + 1)
      ⟨{ x.sched with mailbox := [], runner := runner, status := status }, finished sem x i w, x.files, []⟩ := by
    refine ⟨h.specs, ?_, hinv, CollectionStatus.getCurrentPlans_erase h.current hcur, fun c => ?_, ?_,
      h.started, rfl, rfl⟩
    · show runner.planCount = _
      rw [hcount, h.count]
      push_cast
      rfl
    · show status.lastCp.get? c = _
      rw [hlast, h.last c, hknown]
      cases hmj : w.getMapJoinSpec? with
      | some m => rw [hv m hmj, SpecWrapper.iters_mapJoin hmj]
      | none => exact lastCp_other hmj
    · refine h.held_next hp hv fun hno => ?_
      rcases h.other hno with he | ⟨-, hdone⟩
      · rw [hm] at he
        cases he
      · exact hdone
  exact hb.tryRun hp hrun

/-! ### A message -/

section Control

variable {m : MapJoinSpec String} {s : Scheduler δ} {ctrl : ControllerMsg}

theorem Live.launched {pid : Int} (h : Live m s pid) : Account.Launched m s pid m.numIter := by
  rcases h with h | h
  · exact h.toLaunched
  · exact h.1

/-- A map-join stays on its way, or its end starts the recovery. -/
theorem Live.control (h : Live m s ctrl.planId) (hst : s.recover.started = false)
    (hcp : ctrl.flag ≠ .kFinishCP)
    (hjoin : ctrl.flag = .kJoin → (s.control ctrl.planId).hasCallback = true ∧
      (s.control ctrl.planId).versions < s.expectedVersions ctrl.planId)
    (hfin : ctrl.flag = .kFinish → .kTerminatePlan ∈ (s.control ctrl.planId).broadcasts)
    (hs : s.onControl ctrl = .ok s') :
    s'.recover.started = true ∨ (s'.recover.started = false ∧ Live m s' ctrl.planId) := by
  rcases h with h | ⟨hl, hcall, hcb, hmail⟩
  · have hg := h.control hcp hjoin hfin hs
    exact .inr ⟨hg.started, .inl hg⟩
  · have hl' := hl.control hcp (fun hf => (hjoin hf).2) hs
    obtain ⟨sp, -, hk, -, hheard⟩ := onControl_heard hcp hs
    have hcall' : ∃ dead, s'.callbacks ctrl.planId = .recover dead := by
      rw [hk.callbacks]
      exact hcall
    cases hheard with
    | quiet steady hasCallback lastCp mailbox recover onRecovered =>
      exact .inr ⟨by rw [recover]; exact hst, .inr ⟨hl', hcall', hasCallback.trans hcb,
        mailbox.trans hmail⟩⟩
    | finish flag steady hasCallback taken lastCp called =>
      obtain ⟨dead, hdead⟩ := hcall
      rw [hdead] at called
      exact .inl called.2.2.1
    | rise flag rises lastCp mailbox recover onRecovered =>
      exact .inr ⟨by rw [recover]; exact hst, .inr ⟨hl', hcall', rises.hasCallback.trans hcb,
        mailbox.trans hmail⟩⟩

/-- One version on, a checkpoint is due or the last one stays. -/
theorem tdiv_succ {v ci : Int} (hv : 0 ≤ v) (hci : 1 ≤ ci) (hmod : (v + 1).tmod ci ≠ 0) :
    (v + 1).tdiv ci = v.tdiv ci ∧ (ci ≤ v + 1 ↔ ci ≤ v) := by
  have hround := Account.rounded_succ hv hci
  rw [if_neg hmod] at hround
  refine ⟨Int.eq_of_mul_eq_mul_right (by omega) hround, fun hle => ?_, fun hle => by omega⟩
  rcases Int.lt_or_eq_of_le hle with hlt | heq
  · omega
  · rw [← heq, Int.tmod_self] at hmod
    exact absurd rfl hmod

theorem lastCp_succ {v c : Int} (hm : w.getMapJoinSpec? = some m) (hv : 0 ≤ v)
    (hci : 0 ≤ m.checkpointInterval) :
    w.lastCp (v + 1) c old =
      if m.checkpointInterval ≠ 0 ∧ (v + 1).tmod m.checkpointInterval = 0 ∧
          m.updateCollectionId = c
      then some (cpName m.checkpointPath ((v + 1).tdiv m.checkpointInterval))
      else w.lastCp v c old := by
  rw [SpecWrapper.lastCp_mapJoin hm, SpecWrapper.lastCp_mapJoin hm]
  by_cases h0 : m.checkpointInterval = 0
  · simp [h0]
  by_cases hmod : (v + 1).tmod m.checkpointInterval = 0
  · have hle : m.checkpointInterval ≤ v + 1 :=
      Int.le_of_dvd (by omega) (Int.dvd_of_tmod_eq_zero hmod)
    by_cases hc : m.updateCollectionId = c
    · rw [if_pos ⟨hc, h0, hle⟩, if_pos ⟨h0, hmod, hc⟩]
    · rw [if_neg fun h => hc h.1, if_neg fun h => hc h.2.2, if_neg fun h => hc h.1]
  · obtain ⟨hdiv, hle⟩ := tdiv_succ hv (by omega) hmod
    rw [if_neg fun (h : _ ∧ _ ∧ _) => hmod h.2.1, hdiv]
    exact if_congr (by rw [hle]) rfl rfl

theorem Runs.control (h : Runs sem plans i w x) (hp : Program plans)
    (hal : x.AllowedIn sem i w (.sched (.control ctrl))) (hs : x.sched.onControl ctrl = .ok s') :
    s'.recover.started = true ∨ Runs sem plans i w { x with sched := s' } := by
  obtain ⟨hmj, hid, hcp, hjoin, hfin⟩ := hal
  have hmem := mem_of_getElem? h.plan
  obtain ⟨m, hm⟩ := (isMapJoin_iff (hp.types w hmem)).mp hmj
  obtain ⟨-, hci⟩ := hp.iters w hmem m hm
  have hlive := h.live m hm
  rw [← hid] at hlive hjoin hfin
  rcases hlive.control h.started hcp (fun hf => ⟨(hjoin hf).1, (hjoin hf).2.1⟩) hfin hs with
    hst | ⟨hst, hlive'⟩
  · exact .inl hst
  right
  obtain ⟨sp, hsp, hk, -, hheard⟩ := onControl_heard hcp hs
  obtain ⟨sp', hsp', hci', hcid', hpath'⟩ := hlive.launched.hasSpec
  cases Option.some.inj (hsp'.symm.trans hsp)
  have hnn := hlive.launched.nonneg
  -- the versions and the last checkpoints, together
  have hlast : (∀ c, s'.status.lastCp.get? c =
        w.lastCp (s'.control ctrl.planId).versions c (known c (plans.take i)).last) ∧
      (m.checkpointInterval ≠ 0 → m.checkpointInterval ≤ (s'.control ctrl.planId).versions →
        ∀ p ∈ sem.parts m.updateCollectionId,
          (((s'.control ctrl.planId).versions.tdiv m.checkpointInterval - 1).toNat, p) ∈ x.saved) := by
    have hold := h.last
    have hadded := h.added m hm
    rw [← hid] at hold hadded
    cases hheard with
    | quiet steady hasCallback lastCp | finish flag steady hasCallback taken lastCp =>
      rw [steady.versions, lastCp]
      exact ⟨hold, hadded⟩
    | rise flag rises lastCp =>
      rw [rises.versions, lastCp, hci', hcid', cpUrl_eq]
      constructor
      · intro c
        rw [lastCp_succ hm hnn hci, ← hold c]
        split
        · next hc =>
          rw [OrdMap.get?_set]
          by_cases he : m.updateCollectionId = c
          · rw [if_pos he.symm, if_pos ⟨hc.1, hc.2, he⟩]
            exact congrArg (fun path => some (cpName path _)) hpath'
          · rw [if_neg (Ne.symm he), if_neg fun hall => he hall.2.2]
        · next hc => rw [if_neg fun hall => hc ⟨hall.1, hall.2.1⟩]
      · intro h0 hle
        by_cases hmod : ((x.sched.control ctrl.planId).versions + 1).tmod m.checkpointInterval = 0
        · exact (hjoin flag).2.2 m hm h0 hmod
        · obtain ⟨hdiv, hle'⟩ := tdiv_succ hnn (by omega) hmod
          rw [hdiv]
          exact hadded h0 (hle'.mp hle)
  rw [hid] at hlast hlive'
  refine ⟨hk.specs.trans h.specs, h.plan, ?_, ?_, hk.getCurrentPlans.trans h.current, ?_, hlast.1,
    fun s hs => ?_, h.held, h.saves, hst, fun m' hm' => ?_, fun m' hm' => ?_, fun hno => ?_⟩
  · show s'.runner.planCount = _
    rw [hk.runner]
    exact h.count
  · show s'.status.Inv
    rw [hk.status]
    exact ⟨h.inv.reads, h.inv.readKeys, h.inv.writes, h.inv.nodup, h.inv.disjoint⟩
  · show s'.status.rw i = _
    rw [hk.status]
    exact h.rw
  · rcases SpecWrapper.spec_of_mapJoin hm with hs' | ⟨_, hs', -⟩ <;> rw [hs'] at hs <;> cases hs
  · cases Option.some.inj (hm.symm.trans hm')
    exact hlive'
  · cases Option.some.inj (hm.symm.trans hm')
    exact hlast.2
  · rw [hm] at hno
    cases hno

end Control

/-! ### Files -/

theorem apart_of_take (hc : Careful plans) (hw : plans[i]? = some w) {w' : SpecWrapper String δ}
    (hw' : w' ∈ plans.take i) : ∀ t ∈ w'.checkpoints, t ∉ w.checkpoints := by
  have hlt := (List.getElem?_eq_some_iff.mp hw).1
  have hsplit : plans = plans.take i ++ w :: plans.drop (i + 1) := by
    rw [← (List.getElem?_eq_some_iff.mp hw).2, ← drop_eq_getElem_cons hlt, take_append_drop]
  have hpair := hc.apart
  rw [hsplit, pairwise_append] at hpair
  exact hpair.2.2 w' hw' w mem_cons_self

theorem Runs.save (h : Runs sem plans i w x) (hp : Program plans) (hc : Careful plans) {k : Nat}
    {part : Int} {d : D} (hal : x.AllowedIn sem i w (.save k part d)) :
    Runs sem plans i w (x.write k part d) := by
  obtain ⟨t, ht, -, hd⟩ := hal
  have hmem := mem_of_getElem? h.plan
  have hcut : Cut w := by
    intro m hm
    obtain ⟨h0, -, -⟩ := (SpecWrapper.getElem?_checkpoints_mapJoin hm).mp ht
    exact hc.cut w hmem m hm h0
  have hwrite : x.write k part d =
      { x with
        files := update x.files (getCheckpointUrl t.2 t.1 part) (some d)
        saved := (k, part) :: x.saved } := by
    have hbind : (x.running?.bind fun r => r.2.checkpoints[k]?) = some t := by
      rw [running?_eq h]
      exact ht
    unfold write
    rw [hbind]
  rw [hwrite]
  -- the file belongs to no checkpoint of an earlier plan
  have hold : ∀ c url, (known c (plans.take i)).last = some url → ∀ p,
      update x.files (getCheckpointUrl t.2 t.1 part) (some d) (getCheckpointUrl url c p) =
        x.files (getCheckpointUrl url c p) := by
    intro c url hlast p
    refine update_of_ne (fun heq => ?_) _ _
    obtain ⟨hu, hcid, -⟩ := getCheckpointUrl_inj heq
    obtain ⟨w', hw', hmem'⟩ := known_last_mem
      (fun w' hw' => hp.iters w' (mem_of_mem_take hw')) hlast
    refine apart_of_take hc h.plan hw' _ hmem' ?_
    rw [hu, hcid]
    exact mem_of_getElem? ht
  refine ⟨h.specs, h.plan, h.count, h.inv, h.current, h.rw, h.last, h.loaded, ⟨?_, ?_⟩, ?_,
    h.started, h.live, fun m hm h0 hle p hpart => mem_cons_of_mem _ (h.added m hm h0 hle p hpart),
    fun hno => ?_⟩
  · intro c url hlast p hpart
    dsimp only
    rw [hold c url hlast]
    exact h.held.exist c url hlast p hpart
  · intro c hcur
    obtain ⟨url, hlast, hfiles⟩ := h.held.current c hcur
    exact ⟨url, hlast, fun p hpart => (hold c url hlast p).trans (hfiles p hpart)⟩
  · intro k' p' t' hk' ht'
    show update x.files _ _ _ = some (due sem x i w k' t'.1 p')
    by_cases heq : getCheckpointUrl t'.2 t'.1 p' = getCheckpointUrl t.2 t.1 part
    · obtain ⟨hu, hcid, hpart⟩ := getCheckpointUrl_inj heq
      have htt : t' = t := Prod.ext hcid hu
      subst htt
      rw [SpecWrapper.checkpoints_inj ht' ht, hpart, update_self, hd hcut]
    · rw [update_of_ne heq]
      refine h.saves k' p' t' ?_ ht'
      rcases mem_cons.mp hk' with hk | hk
      · obtain ⟨rfl, rfl⟩ := Prod.ext_iff.mp hk
        cases Option.some.inj (ht.symm.trans ht')
        exact absurd rfl heq
      · exact hk
  · rcases h.other hno with he | ⟨he, hdone⟩
    · exact .inl he
    · exact .inr ⟨he, fun t ht p hpart => mem_cons_of_mem _ (hdone t ht p hpart)⟩

/-- The manager of a plan other than a map-join is done. -/
theorem Runs.managerDone (h : Runs sem plans i w x) (hp : Program plans) {id : Int}
    (hal : x.AllowedIn sem i w (.sched (.managerDone id))) :
    Runs sem plans i w { x with sched := { x.sched with mailbox := x.sched.mailbox ++ [id] } } := by
  obtain ⟨hid, hmj, hempty, hdone⟩ := hal
  have hno : w.getMapJoinSpec? = none := by
    rw [Option.eq_none_iff_forall_ne_some]
    intro m hm
    rw [(isMapJoin_iff (hp.types w (mem_of_getElem? h.plan))).mpr ⟨m, hm⟩] at hmj
    cases hmj
  refine ⟨h.specs, h.plan, h.count, h.inv, h.current, h.rw, h.last, h.loaded, h.held, h.saves,
    h.started, fun m hm => ?_, h.added, fun _ => .inr ⟨?_, hdone⟩⟩
  · rw [hno] at hm
    cases hm
  · show x.sched.mailbox ++ [id] = _
    rw [hempty, hid]
    rfl

/-- Nodes die: the plan is aborted. -/
theorem Runs.recovery (h : Runs sem plans i w x) (hp : Program plans) {dead : OrdSet Int}
    (hal : x.AllowedIn sem i w (.sched (.recovery dead)))
    (hs : x.sched.recovery dead = .ok s') : Runs sem plans i w { x with sched := s' } := by
  obtain ⟨hmj, hcb, hlost⟩ := hal
  obtain ⟨m, hm⟩ := (isMapJoin_iff (hp.types w (mem_of_getElem? h.plan))).mp hmj
  have hstored : x.sched.specs[((i : Int)).toNat]? = some w := by
    rw [h.specs, Int.toNat_natCast]
    exact h.plan
  rw [Account.recovery_eq h.current hstored hmj hlost hcb] at hs
  cases hs
  have hc : update x.sched.control (i : Int)
      ((x.sched.control i).sendToAllControllers .kTerminatePlan) i =
      (x.sched.control i).sendToAllControllers .kTerminatePlan := update_self _ _ _
  have hl := (h.live m hm).launched
  have hmail : x.sched.mailbox = [] := by
    rcases h.live m hm with hg | ⟨-, -, -, hm⟩
    · rcases hg.finished with ⟨-, hm⟩ | ⟨hno, -⟩
      · exact hm
      · rw [hcb] at hno
        cases hno
    · exact hm
  refine ⟨h.specs, h.plan, h.count, h.inv, h.current, h.rw, fun c => ?_, h.loaded, h.held, h.saves,
    h.started, fun m' hm' => ?_, fun m' hm' => ?_, fun hno => ?_⟩
  · show _ = w.lastCp (update x.sched.control (i : Int) _ i).versions _ _
    rw [hc]
    exact h.last c
  · cases Option.some.inj (hm.symm.trans hm')
    refine .inr ⟨⟨hl.hasSpec, hl.expected, ?_, ?_⟩, ⟨dead, update_self _ _ _⟩, ?_, hmail⟩
    · show 0 ≤ (update x.sched.control (i : Int) _ i).versions
      rw [hc]
      exact hl.nonneg
    · show (update x.sched.control (i : Int) _ i).versions ≤ _
      rw [hc]
      exact hl.le
    · show (update x.sched.control (i : Int) _ i).hasCallback = true
      rw [hc]
      exact hcb
  · show _ → _ ≤ (update x.sched.control (i : Int) _ i).versions → ∀ p ∈ _,
      (((update x.sched.control (i : Int) _ i).versions.tdiv _ - 1).toNat, p) ∈ _
    rw [hc]
    exact h.added m' hm'
  · rw [hm] at hno
    cases hno

/-! ### Every event -/

/-- The recovery restores, the program is at its end, or a plan runs. -/
def Inv (sem : Semantics D) (plans : List (SpecWrapper String δ)) (x : Storage δ D) : Prop :=
  x.sched.recover.started = true ∨ x.sched.status.getCurrentPlans = [] ∨
    ∃ i w, Runs sem plans i w x

theorem Runs.step (h : Runs sem plans i w x) (hp : Program plans) (hc : Careful plans)
    {a : Event D} (hal : x.AllowedIn sem i w a) {u : Storage δ D} (hs : x.step sem a = .ok u) :
    Inv sem plans u := by
  have hstay : ∀ {u}, Runs sem plans i w u → Inv sem plans u := fun hr => .inr (.inr ⟨i, w, hr⟩)
  cases a with
  | save k part d =>
    cases hs
    exact hstay (h.save hp hc hal)
  | sched a =>
    cases a with
    | control ctrl =>
      obtain ⟨s', hs', hs⟩ := bind_eq_ok.mp hs
      cases hs
      rcases h.control hp hal hs' with hst | hr
      · exact .inl hst
      · exact hstay hr
    | recovery dead =>
      obtain ⟨s', hs', hs⟩ := bind_eq_ok.mp hs
      cases hs
      exact hstay (h.recovery hp hal hs')
    | answer k => exact absurd hal id
    | managerDone id =>
      cases hs
      exact hstay (h.managerDone hp hal)
    | finishPlan =>
      obtain ⟨s', hs', hs⟩ := bind_eq_ok.mp hs
      cases hs
      unfold handled
      rw [running?_eq h]
      cases hm : x.sched.mailbox with
      | nil =>
        have hsame : s' = x.sched := by
          have hfin : x.sched.finishPlan = .ok s' := hs'
          unfold finishPlan at hfin
          rw [hm] at hfin
          exact (Except.ok.inj hfin).symm
        subst hsame
        exact hstay h
      | cons id rest =>
        -- only the running plan tells that it is finished, with all its iterations done
        have hbox : x.sched.mailbox = [(i : Int)] ∧
            ∀ m ∈ w.getMapJoinSpec?, (x.sched.control i).versions = m.numIter := by
          cases hmj : w.getMapJoinSpec? with
          | some m =>
            rcases h.live m hmj with hg | ⟨-, -, -, hno⟩
            · rcases hg.finished with ⟨-, hno⟩ | ⟨-, hone, hv⟩
              · rw [hm] at hno
                cases hno
              · refine ⟨hone, fun m' hm' => ?_⟩
                cases Option.some.inj hm'
                exact hv
            · rw [hm] at hno
              cases hno
          | none =>
            rcases h.other hmj with hno | ⟨hone, -⟩
            · rw [hm] at hno
              cases hno
            · exact ⟨hone, fun m hm' => by cases hm'⟩
        rcases h.finish hp hc.short hbox.1 hbox.2 hs' with hidle | ⟨w', hr⟩
        · exact .inr (.inl hidle)
        · exact .inr (.inr ⟨i + 1, w', hr⟩)

theorem Inv.runs (h : Inv sem plans x) (hst : x.sched.recover.started = false) {pid : Int}
    (hr : x.running? = some (pid, w)) : ∃ i : Nat, Runs sem plans i w x ∧ pid = i := by
  rcases h with h | h | ⟨i, w', h⟩
  · rw [h] at hst
    cases hst
  · unfold running? at hr
    rw [h] at hr
    cases hr
  · rw [running?_eq h] at hr
    cases Option.some.inj hr
    exact ⟨i, h, rfl⟩

theorem Inv.step (h : Inv sem plans x) (hp : Program plans) (hc : Careful plans) {a : Event D}
    (hal : x.Allowed sem a) {u : Storage δ D} (hs : x.step sem a = .ok u) : Inv sem plans u := by
  obtain ⟨hst, r, hr, hal⟩ := hal
  obtain ⟨i, hrun, hi⟩ := h.runs hst hr
  exact hrun.step hp hc (hi ▸ hal) hs

theorem boundary_fresh (sem : Semantics D) {s : Scheduler δ} (hs : Fresh s plans) (base : Int → Int → D) :
    Boundary sem plans 0 ⟨s, base, fun _ => none, []⟩ := by
  refine ⟨hs.specs, hs.count, ?_, ?_, fun c => ?_, ⟨?_, ?_⟩, hs.started, hs.mailbox, rfl⟩
  · show s.status.Inv
    rw [hs.status]
    exact CollectionStatus.inv_empty
  · show s.status.getCurrentPlans = []
    rw [hs.status]
    rfl
  · show s.status.lastCp.get? c = _
    rw [hs.status]
    rfl
  · intro c url hlast
    cases hlast
  · intro c hcur
    cases hcur

/-! ## What is returned -/

theorem withCP_ok (status : CollectionStatus) (cids : List Int)
    (h : ∀ c ∈ cids, ∃ url, status.lastCp.get? c = some url) :
    ∃ l, status.withCP cids = .ok l ∧
      ∀ e ∈ l, e.1 ∈ cids ∧ status.lastCp.get? e.1 = some e.2 := by
  induction cids with
  | nil => exact ⟨[], rfl, fun e he => by cases he⟩
  | cons c cids ih =>
    obtain ⟨url, hurl⟩ := h c mem_cons_self
    obtain ⟨l, hl, hall⟩ := ih fun c' hc' => h c' (mem_cons_of_mem _ hc')
    have hget : status.getLastCP c = .ok url := by
      unfold CollectionStatus.getLastCP
      rw [hurl]
    refine ⟨(c, url) :: l, ?_, fun e he => ?_⟩
    · have hcons : (status.withCP cids >>= fun l => pure ((c, url) :: l)) = .ok ((c, url) :: l) := by
        rw [hl]
        rfl
      unfold CollectionStatus.withCP
      rw [mapM_cons, hget]
      exact hcons
    · rcases mem_cons.mp he with rfl | he
      · exact ⟨mem_cons_self, hurl⟩
      · exact ⟨mem_cons_of_mem _ (hall e he).1, (hall e he).2⟩

theorem Runs.exists_current (h : Runs sem plans i w x) {P : Int → Prop} :
    (∃ id ∈ x.sched.status.curPlans.keys, P id) ↔ P i := by
  have hkeys : ∀ id, id ∈ x.sched.status.curPlans.keys ↔ id = (i : Int) := by
    intro id
    show id ∈ x.sched.status.getCurrentPlans ↔ _
    rw [h.current, mem_singleton]
  simp only [hkeys, exists_eq_left]

/-- The collections that the running plan reads and writes. -/
theorem Runs.mem_getReads (h : Runs sem plans i w x) :
    c ∈ x.sched.status.getReads ↔ c ∈ w.getReadWrite.first := by
  show c ∈ x.sched.status.readIds.keys ↔ _
  rw [h.inv.mem_readIds, ← h.rw]
  exact h.exists_current

theorem Runs.mem_getWrites (h : Runs sem plans i w x) :
    c ∈ x.sched.status.getWrites ↔ c ∈ w.getReadWrite.second := by
  show c ∈ x.sched.status.writeIds.keys ↔ _
  rw [h.inv.writes, ← h.rw]
  exact h.exists_current

theorem getReadWrite_mapJoin {m : MapJoinSpec String} (hm : w.getMapJoinSpec? = some m) :
    w.getReadWrite.second = [m.updateCollectionId] := by
  unfold SpecWrapper.getReadWrite
  rcases SpecWrapper.spec_of_mapJoin hm with hs | ⟨m', hs, rfl⟩
  · rw [hs]
    simp only [SpecWrapper.Spec.getReadWrite, MapJoinSpec.getReadWrite]
    split
    · next heq => rw [heq]
    · rfl
  · rw [hs]
    rfl

/-- The last checkpoint of a collection that is known to be current. -/
theorem Runs.last_holds (h : Runs sem plans i w x) {m : MapJoinSpec String}
    (hm : w.getMapJoinSpec? = some m) (hci : 1 ≤ m.checkpointInterval)
    (hcur : (known c (plans.take i)).current = true) :
    ∃ url, x.sched.status.lastCp.get? c = some url ∧ ∀ p ∈ sem.parts c,
      x.files (getCheckpointUrl url c p) = some (sem.after i m.updateCollectionId x.base
        ((x.sched.control i).versions.tdiv m.checkpointInterval * m.checkpointInterval).toNat c p) := by
  have hnn := (h.live m hm).launched.nonneg
  have hle := (h.live m hm).launched.le
  rw [h.last c, SpecWrapper.lastCp_mapJoin hm]
  split
  · next hc =>
    obtain ⟨rfl, h0, hle'⟩ := hc
    refine ⟨_, rfl, fun p hpart => ?_⟩
    have hpos : 1 ≤ (x.sched.control i).versions.tdiv m.checkpointInterval := by
      rw [Int.tdiv_eq_ediv_of_nonneg (by omega)]
      exact (Int.le_ediv_iff_mul_le (by omega)).mpr (by omega)
    have hmono : (x.sched.control i).versions.tdiv m.checkpointInterval ≤
        m.numIter.tdiv m.checkpointInterval := by
      rw [Int.tdiv_eq_ediv_of_nonneg (by omega), Int.tdiv_eq_ediv_of_nonneg (by omega)]
      exact Int.ediv_le_ediv (by omega) hle
    have hidx : ((((x.sched.control i).versions.tdiv m.checkpointInterval - 1).toNat : Nat) : Int) + 1 =
        (x.sched.control i).versions.tdiv m.checkpointInterval := by omega
    have hget := h.saves _ p _ (h.added m hm h0 hle' p hpart)
      ((SpecWrapper.getElem?_checkpoints_mapJoin hm).mpr ⟨h0, by omega, rfl⟩)
    unfold due at hget
    rw [hm] at hget
    simp only [hidx] at hget
    exact hget
  · next hc =>
    obtain ⟨url, hlast, hfiles⟩ := h.held.current c hcur
    refine ⟨url, hlast, fun p hpart => ?_⟩
    rw [hfiles p hpart]
    by_cases heq : c = m.updateCollectionId
    · have hlt : (x.sched.control i).versions < m.checkpointInterval := by
        by_contra hge
        exact hc ⟨heq.symm, by omega, by omega⟩
      rw [Int.tdiv_eq_zero_of_lt hnn hlt, Int.zero_mul]
      rfl
    · rw [sem.after_of_ne x.base heq]

/-- A counter, in the one partition of every collection. -/
def counter : Semantics Int where
  parts _ := [0]
  make _ _ := 0
  iterate _ base p := base 1 p + 1

def distributePlan (id : Int) : SpecWrapper String Unit := ⟨.kDistribute, id, "", .distribute ⟨1, 1, ()⟩⟩

def checkpointPlan (id : Int) (url : String) : SpecWrapper String Unit :=
  ⟨.kCheckpoint, id, "", .checkpoint ⟨1, url⟩⟩

/-- `n` iterations over collection 1, with a checkpoint every `ci` iterations. -/
def iteratePlan (id n ci : Int) (path : String) : SpecWrapper String Unit :=
  ⟨.kMapJoin, id, "", .mapJoin ⟨1, 1, 0, n, 0, ci, path, ""⟩⟩

/-- The scheduler of one node, before the first plan. -/
def oneNode (plans : List (SpecWrapper String Unit)) (dag : List PlanNode) : Scheduler Unit where
  specs := plans
  runner := .ofDag (.ofProgram dag)
  status := .empty
  controlSpecs _ := none
  control _ := ⟨∅, ∅, 0, ⟨.ofKeys [] 0, .ofKeys [] 0, .ofKeys [] 0⟩,
    ⟨.ofKeys [] 0, .ofKeys [] 0, .ofKeys [] 0⟩, fun _ => ∅, [], false, []⟩
  expectedVersions _ := 0
  callbacks _ := .finishPlan 0
  cachedPartToNode _ _ := []
  recover := {
    nodes := OrdSet.empty.insert 1
    collectionMap := fun c => if c = 1 then some [1] else none
    loader := ⟨fun _ => 0, fun _ => 0, fun _ => none⟩
    manager := ⟨fun _ => .empty, fun _ => none⟩
    started := false
    callback := false
    recovering := .empty
    updating := .empty
    invoked := 0
    commands := [] }
  onRecovered := .finishRecovery
  mailbox := []
  launches := []

/-- The collection is made and checkpointed. -/
def untilCheckpoint : List (Event Int) :=
  [.sched (.managerDone 0), .sched .finishPlan, .save 0 0 0, .sched (.managerDone 1),
    .sched .finishPlan]

/-- Checkpointed, updated without a checkpoint, and updated again. -/
def uncovered : List (SpecWrapper String Unit) :=
  [distributePlan 0, checkpointPlan 1 "/a", iteratePlan 2 1 0 "", iteratePlan 3 2 1 "/p"]

def uncoveredDag : List PlanNode := [⟨0, [], [1]⟩, ⟨1, [1], []⟩, ⟨2, [1], [1]⟩, ⟨3, [1], [1]⟩]

def untilUpdated : List (Event Int) :=
  untilCheckpoint ++ [.sched (.control ⟨.kSetup, 0, 1, 2, 0⟩), .sched (.control ⟨.kJoin, 1, 1, 2, 0⟩),
    .sched (.control ⟨.kFinish, 0, 1, 2, 0⟩), .sched .finishPlan]

theorem fresh_oneNode (plans : List (SpecWrapper String Unit)) (dag : List PlanNode) :
    Fresh (oneNode plans dag) plans :=
  ⟨rfl, rfl, rfl, rfl, rfl⟩

/-- The program is as the drivers build it. -/
theorem program_of {δ : Type} {plans : List (SpecWrapper String δ)}
    (h : ∀ i < plans.length, ∀ w ∈ plans[i]?, w.id = i ∧ w.type = w.spec.type ∧ w.type ≠ .kWrite ∧
      ∀ m ∈ w.getMapJoinSpec?, 1 ≤ m.numIter ∧ 0 ≤ m.checkpointInterval) : Program plans := by
  have hall : ∀ w ∈ plans, ∃ i : Nat, i < plans.length ∧ plans[i]? = some w := by
    intro w hw
    obtain ⟨i, hi⟩ := mem_iff_getElem?.mp hw
    exact ⟨i, (List.getElem?_eq_some_iff.mp hi).1, hi⟩
  constructor
  · exact fun i w hi => (h i (List.getElem?_eq_some_iff.mp hi).1 w hi).1
  · intro w hw
    obtain ⟨i, hlt, hi⟩ := hall w hw
    exact (h i hlt w hi).2.1
  · intro w hw
    obtain ⟨i, hlt, hi⟩ := hall w hw
    exact (h i hlt w hi).2.2.1
  · intro w hw
    obtain ⟨i, hlt, hi⟩ := hall w hw
    exact (h i hlt w hi).2.2.2

/-- Checkpointed and updated with checkpoints. -/
def covered : List (SpecWrapper String Unit) :=
  [distributePlan 0, checkpointPlan 1 "/a", iteratePlan 2 2 1 "/p"]

def coveredDag : List PlanNode := [⟨0, [], [1]⟩, ⟨1, [1], []⟩, ⟨2, [1], [1]⟩]

def untilFirstIteration : List (Event Int) :=
  untilCheckpoint ++ [.sched (.control ⟨.kSetup, 0, 1, 2, 0⟩), .save 0 0 1,
    .sched (.control ⟨.kJoin, 1, 1, 2, 0⟩)]

theorem careful_covered : Careful covered :=
  ⟨by decide +kernel, by decide +kernel, by decide⟩

end Storage

end Tangram
