import Tangram.Lib.Bag
import Tangram.Lib.Gather
import Tangram.Plan.Spec
import Tangram.Scheduler.FileTask
import Tangram.Storage.Urls

/-!
# Checkpoint plans

`CheckpointManager` and `CheckpointLoader` (`core/scheduler/checkpoint_manager.cpp`,
`checkpoint_loader.cpp`) with the workers that write and read the files
(`Worker::CheckPoint`, `Worker::LoadCheckPoint`).  Plans of all collections run at
once; what a worker does and what arrives comes in any order.

The id of the plan and the counters are kept by collection.  A plan that starts
while another one of its collection is under way takes over both: the other plan
never finishes.  If this does not happen (`Apart`), every plan finishes once, when
the last of its files is written (`checkpoint_plans_finish`).
-/

namespace Tangram

open StepRun FileTask List Function

variable {P : Type}

/-- `ToBin` and `FromBin` of a partition. -/
structure PartBin (P : Type) where
  toBin : P → List UInt8
  fromBin : List UInt8 → Option P
  fromBin_toBin : ∀ part, fromBin (toBin part) = some part

structure CheckpointTask extends FileTask where
  load : Bool
deriving DecidableEq, Repr

/-- The plans of `Checkpoint`. -/
inductive CheckpointPlan
  | checkpoint (spec : CheckpointSpec String)
  | loadCheckpoint (spec : LoadCheckpointSpec String)
deriving DecidableEq, Repr

namespace CheckpointPlan

def cid : CheckpointPlan → Int
  | .checkpoint spec => spec.cid
  | .loadCheckpoint spec => spec.cid

def isLoad : CheckpointPlan → Bool
  | .checkpoint _ => false
  | .loadCheckpoint _ => true

end CheckpointPlan

/-- A plan with the contents of its collection when it started. -/
structure CheckpointStarted (P : Type) where
  planId : Int
  plan : CheckpointPlan
  parts : List (Option P)
deriving DecidableEq, Repr

inductive CheckpointCheck
  | collectionMap | lastCP | callback
  | has | file | fileSize | fromBin
  | noTask
deriving DecidableEq, Repr

/-- The manager, the loader (`loader` are its two counters, `callbacks` says for which collections
it has a callback), the files and the tasks.  `finished` are the plans for which `kFinishPlan` was
sent; `started` and `written` record what happened: every file with the plan it is for. -/
structure CheckpointManager (P : Type) extends Stored P where
  cidPid : Int → Option Int
  replies : Gather.Counter Int
  loader : Gather.Counter Int
  callbacks : Int → Bool
  status : CollectionStatus
  files : String → Option (List UInt8)
  tasks : List CheckpointTask
  finished : List Int
  started : List (CheckpointStarted P)
  written : List (Int × String × List UInt8)

/-- `work` and `reply` are for the task at a place; the last two are what updating plans do:
they change a collection, and they save and register an interval checkpoint of it. -/
inductive CheckpointPlanEvent (P : Type)
  | checkpoint (planId : Int) (spec : CheckpointSpec String)
  | loadCheckpoint (planId : Int) (spec : LoadCheckpointSpec String)
  | work (i : Nat)
  | reply (i : Nat)
  | update (cid : Int) (parts : List P)
  | interval (cid : Int) (url : String) (parts : List P)
deriving DecidableEq, Repr

namespace CheckpointManager

/-! ## Handlers -/

def checkpoint (s : CheckpointManager P) (planId : Int) (spec : CheckpointSpec String) :
    Except CheckpointCheck (CheckpointManager P) :=
  match s.collectionMap spec.cid with
  | none => .error .collectionMap
  | some view => .ok { s with
      cidPid := Function.update s.cidPid spec.cid (some planId)
      replies := s.replies.expect spec.cid view.length
      tasks := s.tasks ++
        (commands view planId spec.cid fun i => getCheckpointUrl spec.url spec.cid i).map (⟨·, false⟩)
      status := s.status.addCP spec.cid spec.url
      started := s.started ++ [⟨planId, .checkpoint spec, s.contents spec.cid⟩] }

/-- The url of the spec is not read. -/
def loadCheckpoint (s : CheckpointManager P) (planId : Int) (spec : LoadCheckpointSpec String) :
    Except CheckpointCheck (CheckpointManager P) :=
  match s.status.getLastCP spec.cid, s.collectionMap spec.cid with
  | .error _, _ => .error .lastCP
  | .ok _, none => .error .collectionMap
  | .ok url, some view => .ok { s with
      cidPid := Function.update s.cidPid spec.cid (some planId)
      loader := s.loader.expect spec.cid view.length
      callbacks := Function.update s.callbacks spec.cid true
      tasks := s.tasks ++
        (commands view planId spec.cid fun i => getCheckpointUrl url spec.cid i).map (⟨·, true⟩)
      started := s.started ++ [⟨planId, .loadCheckpoint spec, s.contents spec.cid⟩] }

/-- `kFinishPlan` for what `cid_pid_` has, which is then erased. -/
def finishPlan (s : CheckpointManager P) (cid : Int) : CheckpointManager P :=
  { s with
    finished := s.finished ++ [(s.cidPid cid).getD 0]
    cidPid := Function.update s.cidPid cid none }

def finishCheckpoint (s : CheckpointManager P) (cid : Int) : CheckpointManager P :=
  let s := { s with replies := s.replies.add cid }
  if s.replies.Full cid then s.finishPlan cid else s

def finishLoadCheckpoint (s : CheckpointManager P) (cid : Int) :
    Except CheckpointCheck (CheckpointManager P) :=
  let s := { s with loader := s.loader.add cid }
  if s.loader.Full cid then do
    check .callback (s.callbacks cid = true)
    return { s.finishPlan cid with callbacks := Function.update s.callbacks cid false }
  else .ok s

/-- `Worker::CheckPoint`. -/
def checkPoint (B : PartBin P) (s : CheckpointManager P) (t : CheckpointTask) :
    Except CheckpointCheck (CheckpointManager P) :=
  match s.partitions (t.nodeId, t.cid, t.partId) with
  | none => .error .has
  | some part => .ok { s with
      files := Function.update s.files t.destUrl (some (B.toBin part))
      written := s.written ++ [(t.planId, t.destUrl, B.toBin part)] }

/-- `Worker::LoadCheckPoint`. -/
def loadCheckPoint (B : PartBin P) (s : CheckpointManager P) (t : CheckpointTask) :
    Except CheckpointCheck (CheckpointManager P) :=
  match s.files t.destUrl with
  | none => .error .file
  | some bin => do
    check .fileSize (bin.length ≠ 0)
    match B.fromBin bin with
    | none => .error .fromBin
    | some part => .ok { s with
        partitions := Function.update s.partitions (t.nodeId, t.cid, t.partId) (some part) }

/-- What the worker does for a command. -/
def handle (B : PartBin P) (s : CheckpointManager P) (t : CheckpointTask) :
    Except CheckpointCheck (CheckpointManager P) :=
  if t.load then s.loadCheckPoint B t else s.checkPoint B t

def work (B : PartBin P) (s : CheckpointManager P) (i : Nat) :
    Except CheckpointCheck (CheckpointManager P) :=
  match s.tasks[i]? with
  | none => .error .noTask
  | some t => do
    check .noTask (t.replied = false)
    let s ← s.handle B t
    return { s with tasks := s.tasks.set i { t with replied := true } }

/-- What the scheduler does for a reply. -/
def collect (s : CheckpointManager P) (t : CheckpointTask) :
    Except CheckpointCheck (CheckpointManager P) :=
  if t.load then s.finishLoadCheckpoint t.cid else .ok (s.finishCheckpoint t.cid)

def reply (s : CheckpointManager P) (i : Nat) : Except CheckpointCheck (CheckpointManager P) :=
  match s.tasks[i]? with
  | none => .error .noTask
  | some t => do
    check .noTask (t.replied = true)
    { s with tasks := s.tasks.eraseIdx i }.collect t

/-- The files of an interval checkpoint. -/
def saveAll (B : PartBin P) (files : String → Option (List UInt8)) (cid : Int) (url : String)
    (parts : List P) (file : String) : Option (List UInt8) :=
  match (List.range parts.length).find? fun (i : Nat) => getCheckpointUrl url cid i = file with
  | none => files file
  | some i => parts[i]?.map B.toBin

def step (B : PartBin P) (s : CheckpointManager P) :
    CheckpointPlanEvent P → Except CheckpointCheck (CheckpointManager P)
  | .checkpoint planId spec => s.checkpoint planId spec
  | .loadCheckpoint planId spec => s.loadCheckpoint planId spec
  | .work i => s.work B i
  | .reply i => s.reply i
  | .update cid parts => .ok { s with toStored := s.put cid parts }
  | .interval cid url parts => .ok { s with
      files := saveAll B s.files cid url parts
      status := s.status.addCP cid url }

/-- No plan of the collection is under way; the parts are those of its view. -/
def Free (s : CheckpointManager P) (cid : Int) (n : Nat) : Prop :=
  s.cidPid cid = none ∧ ∃ view ∈ s.collectionMap cid, view.length = n ∧ 1 ≤ n

instance (s : CheckpointManager P) (cid : Int) (n : Nat) : Decidable (s.Free cid n) :=
  match h : s.collectionMap cid with
  | none => .isFalse fun hx => by
      obtain ⟨-, view, hview, -⟩ := hx
      rw [h] at hview
      cases hview
  | some view => decidable_of_iff (s.cidPid cid = none ∧ view.length = n ∧ 1 ≤ n) (by
      unfold Free
      simp [h])

/-- The number of partitions of a collection. -/
def numParts (s : CheckpointManager P) (cid : Int) : Nat := ((s.collectionMap cid).getD []).length

/-- Plans of one collection do not overlap, and each has an id of its own. -/
def Apart (s : CheckpointManager P) : CheckpointPlanEvent P → Prop
  | .checkpoint planId spec | .loadCheckpoint planId spec =>
    planId ∉ s.started.map (·.planId) ∧ s.Free spec.cid (s.numParts spec.cid)
  | .work _ => True
  | .reply _ => True
  | .update cid parts => s.Free cid parts.length
  | .interval cid _ parts => s.Free cid parts.length

instance (s : CheckpointManager P) : (e : CheckpointPlanEvent P) → Decidable (s.Apart e)
  | .checkpoint planId spec | .loadCheckpoint planId spec => inferInstanceAs
      (Decidable (planId ∉ s.started.map (·.planId) ∧ s.Free spec.cid (s.numParts spec.cid)))
  | .work _ => inferInstanceAs (Decidable True)
  | .reply _ => inferInstanceAs (Decidable True)
  | .update cid parts => inferInstanceAs (Decidable (s.Free cid parts.length))
  | .interval cid _ parts => inferInstanceAs (Decidable (s.Free cid parts.length))

/-- No plan has started, and every partition is on its node. -/
structure Fresh (s : CheckpointManager P) : Prop where
  placed : s.Placed
  tasks : s.tasks = []
  finished : s.finished = []
  started : s.started = []

/-! ## Tasks and plans -/

/-- The collections of the tasks that one of the two counters is for. -/
def asked (l : List CheckpointTask) (load : Bool) : List Int :=
  (l.filter (·.load = load)).map (·.cid)

/-- What a task has to do with the plan it is for. -/
structure TaskOf (s : CheckpointManager P) (e : CheckpointStarted P) (t : CheckpointTask) : Prop where
  plan : e.planId = t.planId
  cid : e.plan.cid = t.cid
  load : e.plan.isLoad = t.load
  pid : s.cidPid t.cid = some t.planId
  node : ∃ view, s.collectionMap t.cid = some view ∧ view[t.partId]? = some t.nodeId
  callback : t.load = true → s.callbacks t.cid = true
  parts : t.load = false → s.contents t.cid = e.parts

/-- The partition has a task that the worker has not done, or its file is written. -/
def Saved (B : PartBin P) (s : CheckpointManager P) (e : CheckpointStarted P)
    (spec : CheckpointSpec String) (p : Nat) (part : P) : Prop :=
  (∃ t ∈ s.tasks, t.planId = e.planId ∧ t.replied = false ∧ t.partId = p ∧
      t.destUrl = getCheckpointUrl spec.url spec.cid p) ∨
    (e.planId, getCheckpointUrl spec.url spec.cid p, B.toBin part) ∈ s.written

structure Inv (B : PartBin P) (s : CheckpointManager P) : Prop where
  placed : s.Placed
  ids : (s.started.map (·.planId)).Nodup
  known : ∀ x ∈ s.finished, x ∈ s.started.map (·.planId)
  tasks : ∀ t ∈ s.tasks, ∃ e ∈ s.started, s.TaskOf e t
  saves : Gather.Inv s.replies (asked s.tasks false)
  loads : Gather.Inv s.loader (asked s.tasks true)
  done : ∀ e ∈ s.started,
    s.finished.count e.planId = if e.planId ∈ s.tasks.map (·.planId) then 0 else 1
  saved : ∀ e ∈ s.started, ∀ spec, e.plan = .checkpoint spec →
    ∀ p part, e.parts[p]? = some (some part) → Saved B s e spec p part
  whole : ∀ e ∈ s.started, e.parts.length = s.numParts e.plan.cid ∧ ∀ x ∈ e.parts, x.isSome

variable {B : PartBin P} {s u v : CheckpointManager P} {t t' : CheckpointTask}
  {e : CheckpointStarted P} {i : Nat} {planId : Int} {l : List CheckpointTask} {view : List Int}
  {spec : LoadCheckpointSpec String}

theorem Inv.of_fresh (h : s.Fresh) : Inv B s where
  placed := h.placed
  ids := by rw [h.started]; exact nodup_nil
  known x hx := by
    rw [h.finished] at hx
    exact absurd hx not_mem_nil
  tasks t ht := by
    rw [h.tasks] at ht
    exact absurd ht not_mem_nil
  saves := by rw [h.tasks]; exact Gather.inv_nil _
  loads := by rw [h.tasks]; exact Gather.inv_nil _
  done e he := by
    rw [h.started] at he
    exact absurd he not_mem_nil
  saved e he := by
    rw [h.started] at he
    exact absurd he not_mem_nil
  whole e he := by
    rw [h.started] at he
    exact absurd he not_mem_nil

theorem Inv.eq_of_plan (h : Inv B s) {e e' : CheckpointStarted P} (he : e ∈ s.started)
    (he' : e' ∈ s.started) (hp : e.planId = e'.planId) : e = e' :=
  inj_on_of_nodup_map h.ids he he' hp

/-- The tasks of a collection are those of a plan. -/
theorem Inv.cid_iff (h : Inv B s) (ht : t ∈ s.tasks) (ht' : t' ∈ s.tasks) :
    t'.cid = t.cid ↔ t'.planId = t.planId := by
  obtain ⟨e, he, hof⟩ := h.tasks t ht
  obtain ⟨e', he', hof'⟩ := h.tasks t' ht'
  constructor
  · intro hc
    have hpid := hof'.pid
    rw [hc, hof.pid] at hpid
    exact (Option.some.inj hpid).symm
  · intro hp
    have hee : e' = e := h.eq_of_plan he' he (by rw [hof'.plan, hof.plan, hp])
    rw [← hof'.cid, ← hof.cid, hee]

theorem Inv.load_eq (h : Inv B s) (ht : t ∈ s.tasks) (ht' : t' ∈ s.tasks)
    (hp : t'.planId = t.planId) : t'.load = t.load := by
  obtain ⟨e, he, hof⟩ := h.tasks t ht
  obtain ⟨e', he', hof'⟩ := h.tasks t' ht'
  have hee : e' = e := h.eq_of_plan he' he (by rw [hof'.plan, hof.plan, hp])
  rw [← hof'.load, ← hof.load, hee]

/-- No task is for a collection without a plan. -/
theorem Inv.cid_ne (h : Inv B s) {cid : Int} (hfree : s.cidPid cid = none) (ht : t ∈ s.tasks) :
    t.cid ≠ cid := by
  obtain ⟨e, -, hof⟩ := h.tasks t ht
  intro hc
  have hpid := hof.pid
  rw [hc, hfree] at hpid
  cases hpid

/-! ## A plan starts -/

theorem asked_append (l l' : List CheckpointTask) (b : Bool) :
    asked (l ++ l') b = asked l b ++ asked l' b := by
  unfold asked
  rw [filter_append, map_append]

theorem asked_commands (view : List Int) (planId cid : Int) (name : Nat → String) (load b : Bool) :
    asked ((commands view planId cid name).map (⟨·, load⟩)) b =
      if load = b then List.replicate view.length cid else [] := by
  unfold asked
  rw [filter_map, map_map]
  split
  · next h =>
    have hall : (commands view planId cid name).filter
        ((fun t : CheckpointTask => decide (t.load = b)) ∘ fun f => ⟨f, load⟩) =
        commands view planId cid name := filter_eq_self.mpr fun _ _ => decide_eq_true h
    rw [hall]
    exact map_cid_commands view planId cid name
  · next h =>
    have hnil : (commands view planId cid name).filter
        ((fun t : CheckpointTask => decide (t.load = b)) ∘ fun f => ⟨f, load⟩) = [] :=
      filter_eq_nil_iff.mpr fun _ _ => by simpa using h
    rw [hnil]
    rfl

/-- What a task has to do with its plan depends on its collection. -/
theorem TaskOf.congr (h : s.TaskOf e t) (hpid : u.cidPid t.cid = s.cidPid t.cid)
    (hmap : u.collectionMap = s.collectionMap) (hcb : u.callbacks t.cid = s.callbacks t.cid)
    (hparts : t.load = false → u.contents t.cid = s.contents t.cid) : u.TaskOf e t where
  plan := h.plan
  cid := h.cid
  load := h.load
  pid := hpid.trans h.pid
  node := by rw [hmap]; exact h.node
  callback hl := hcb.trans (h.callback hl)
  parts hl := (hparts hl).trans (h.parts hl)

/-- A plan starts that has `view` and the commands for it; `b` says whether it loads. -/
structure Launched (s u : CheckpointManager P) (planId : Int) (plan : CheckpointPlan)
    (view : List Int) (url : String) : Prop where
  stored : u.toStored = s.toStored
  cidPid : u.cidPid = Function.update s.cidPid plan.cid (some planId)
  tasks : u.tasks = s.tasks ++ (commands view planId plan.cid fun i =>
    getCheckpointUrl url plan.cid i).map (⟨·, plan.isLoad⟩)
  started : u.started = s.started ++ [⟨planId, plan, s.contents plan.cid⟩]
  finished : u.finished = s.finished
  written : u.written = s.written
  callbacks : ∀ c, u.callbacks c = if plan.isLoad = true ∧ c = plan.cid then true else s.callbacks c
  replies : u.replies = if plan.isLoad then s.replies else s.replies.expect plan.cid view.length
  loader : u.loader = if plan.isLoad then s.loader.expect plan.cid view.length else s.loader

theorem Launched.inv {plan : CheckpointPlan} {url : String} (hl : Launched s u planId plan view url)
    (h : Inv B s) (hurl : ∀ spec, plan = .checkpoint spec → spec.url = url)
    (hnew : planId ∉ s.started.map (·.planId)) (hfree : s.cidPid plan.cid = none)
    (hview : s.collectionMap plan.cid = some view) (hne : view ≠ []) : Inv B u := by
  have hstored := hl.stored
  have hmap : u.collectionMap = s.collectionMap := congrArg Stored.collectionMap hstored
  have hcontents : ∀ c, u.contents c = s.contents c := fun c => by rw [hstored]
  -- the new tasks
  have hmem : ∀ t ∈ u.tasks, t ∈ s.tasks ∨ ∃ f ∈ commands view planId plan.cid
      (fun i => getCheckpointUrl url plan.cid i), t = ⟨f, plan.isLoad⟩ := by
    intro t ht
    rw [hl.tasks] at ht
    rcases mem_append.mp ht with ht | ht
    · exact .inl ht
    · obtain ⟨f, hf, rfl⟩ := mem_map.mp ht
      exact .inr ⟨f, hf, rfl⟩
  have hold : ∀ e ∈ s.started, e.planId ≠ planId := fun e he heq => hnew (heq ▸ mem_map_of_mem he)
  have hplan : ∀ x, x ≠ planId → (x ∈ u.tasks.map (·.planId) ↔ x ∈ s.tasks.map (·.planId)) := by
    intro x hx
    rw [hl.tasks, map_append, mem_append]
    refine or_iff_left fun hm => ?_
    obtain ⟨t, ht, rfl⟩ := mem_map.mp hm
    obtain ⟨f, hf, rfl⟩ := mem_map.mp ht
    exact hx (of_mem_commands hf).2.1
  have hasked : ∀ b, plan.cid ∉ asked s.tasks b := by
    intro b hx
    obtain ⟨t, ht, htc⟩ := mem_map.mp hx
    exact h.cid_ne hfree (mem_filter.mp ht).1 htc
  constructor
  · rw [hstored]
    exact h.placed
  · rw [hl.started, map_append]
    exact nodup_append'.mpr ⟨h.ids, nodup_singleton _, by simpa using hnew⟩
  · intro x hx
    rw [hl.finished] at hx
    rw [hl.started, map_append]
    exact mem_append_left _ (h.known x hx)
  · intro t ht
    rw [hl.started]
    rcases hmem t ht with ht | ⟨f, hf, rfl⟩
    · obtain ⟨e, he, hof⟩ := h.tasks t ht
      have hc := h.cid_ne hfree ht
      refine ⟨e, mem_append_left _ he, hof.congr ?_ hmap ?_ fun _ => hcontents _⟩
      · rw [hl.cidPid, update_of_ne hc]
      · rw [hl.callbacks, if_neg fun hx => hc hx.2]
    · obtain ⟨hc, hp, hnode, -, -⟩ := of_mem_commands hf
      refine ⟨⟨planId, plan, s.contents plan.cid⟩, mem_append_right _ mem_cons_self,
        hp.symm, hc.symm, rfl, ?_, ⟨view, ?_, hnode⟩, ?_, ?_⟩
      · rw [hl.cidPid, hc, update_self, hp]
      · rw [hmap, hc, hview]
      · intro hload
        rw [hl.callbacks, if_pos ⟨hload, hc⟩]
      · intro _
        rw [hcontents, hc]
  · rw [hl.replies, hl.tasks, asked_append, asked_commands]
    cases hb : plan.isLoad with
    | true => simpa using h.saves
    | false => exact h.saves.expect (hasked false) view.length
  · rw [hl.loader, hl.tasks, asked_append, asked_commands]
    cases hb : plan.isLoad with
    | true => exact h.loads.expect (hasked true) view.length
    | false => simpa using h.loads
  · intro e he
    rw [hl.started] at he
    rw [hl.finished]
    rcases mem_append.mp he with he | he
    · rw [h.done e he]
      exact if_congr (hplan _ (hold e he)).symm rfl rfl
    · obtain rfl := mem_singleton.mp he
      have hcount : s.finished.count planId = 0 :=
        count_eq_zero.mpr fun hx => hnew (h.known _ hx)
      have hin : planId ∈ u.tasks.map (·.planId) := by
        obtain ⟨f, hf⟩ := exists_mem_of_ne_nil _ (@commands_ne_nil view planId plan.cid
          (fun i => getCheckpointUrl url plan.cid i) hne)
        rw [hl.tasks, map_append, mem_append]
        exact .inr (mem_map.mpr ⟨⟨f, plan.isLoad⟩, mem_map_of_mem hf, (of_mem_commands hf).2.1⟩)
      rw [hcount, if_pos hin]
  · intro e he spec hspec p part hpart
    rw [hl.started] at he
    rcases mem_append.mp he with he | he
    · rcases h.saved e he spec hspec p part hpart with ⟨t, ht, hx⟩ | hx
      · exact .inl ⟨t, by rw [hl.tasks]; exact mem_append_left _ ht, hx⟩
      · exact .inr (hl.written ▸ hx)
    · obtain rfl := mem_singleton.mp he
      -- there is a command for every partition
      obtain rfl : plan = .checkpoint spec := hspec
      obtain ⟨hlt, -⟩ := List.getElem?_eq_some_iff.mp hpart
      have hlt : p < view.length := by
        rw [← Stored.length_contents hview]
        exact hlt
      refine .inl ⟨⟨⟨spec.cid, p, view[p], getCheckpointUrl url spec.cid p, planId, false⟩, false⟩,
        ?_, rfl, rfl, rfl, ?_⟩
      · have hcmd := @commands_mem view planId spec.cid (fun i => getCheckpointUrl url spec.cid i) p _
          (List.getElem?_eq_getElem hlt)
        rw [hl.tasks]
        exact mem_append_right _ (mem_map.mpr ⟨_, hcmd, rfl⟩)
      · rw [hurl spec rfl]
  · intro e he
    rw [hl.started] at he
    have hnum : u.numParts = s.numParts := by
      unfold numParts
      rw [hmap]
    rw [hnum]
    rcases mem_append.mp he with he | he
    · exact h.whole e he
    · obtain rfl := mem_singleton.mp he
      refine ⟨?_, fun x hx => ?_⟩
      · show (s.contents plan.cid).length = ((s.collectionMap plan.cid).getD []).length
        rw [hview, Stored.length_contents hview]
        rfl
      · exact h.placed.isSome_of_mem hx

theorem launched_checkpoint {spec : CheckpointSpec String}
    (hview : s.collectionMap spec.cid = some view) (hu : s.checkpoint planId spec = .ok u) :
    Launched s u planId (.checkpoint spec) view spec.url := by
  unfold checkpoint at hu
  rw [hview] at hu
  cases hu
  refine ⟨rfl, rfl, rfl, rfl, rfl, rfl, fun c => (if_neg fun hx => ?_).symm, rfl, rfl⟩
  cases hx.1

theorem launched_load (hview : s.collectionMap spec.cid = some view)
    (hu : s.loadCheckpoint planId spec = .ok u) :
    ∃ url, s.status.getLastCP spec.cid = .ok url ∧
      Launched s u planId (.loadCheckpoint spec) view url := by
  unfold loadCheckpoint at hu
  rw [hview] at hu
  cases hcp : s.status.getLastCP spec.cid with
  | error err =>
    rw [hcp] at hu
    cases hu
  | ok url =>
    rw [hcp] at hu
    cases hu
    refine ⟨url, rfl, rfl, rfl, rfl, rfl, rfl, rfl, fun c => ?_, rfl, rfl⟩
    show update s.callbacks spec.cid true c = _
    rw [update_apply]
    exact if_congr ⟨fun hx => ⟨rfl, hx⟩, And.right⟩ rfl rfl

theorem Inv.checkpoint (h : Inv B s) {spec : CheckpointSpec String}
    (ha : s.Apart (.checkpoint planId spec)) (hu : s.checkpoint planId spec = .ok u) : Inv B u := by
  obtain ⟨hnew, hfree, view, hview, hlen, hpos⟩ := ha
  have hne : view ≠ [] := ne_nil_of_length_pos (by omega)
  refine (launched_checkpoint hview hu).inv h (fun spec' hs => ?_) hnew hfree hview hne
  cases hs
  rfl

theorem Inv.loadCheckpoint (h : Inv B s) (ha : s.Apart (.loadCheckpoint planId spec))
    (hu : s.loadCheckpoint planId spec = .ok u) : Inv B u := by
  obtain ⟨hnew, hfree, view, hview, hlen, hpos⟩ := ha
  have hne : view ≠ [] := ne_nil_of_length_pos (by omega)
  obtain ⟨url, -, hl⟩ := launched_load hview hu
  refine hl.inv h (fun spec' hs => ?_) hnew hfree hview hne
  cases hs

/-! ## A worker does a task -/

theorem asked_set (ht : l[i]? = some t) (b : Bool) :
    asked (l.set i { t with replied := true }) b = asked l b := by
  obtain ⟨hsplit, -⟩ := split_of_getElem? ht
  obtain ⟨hi, -⟩ := List.getElem?_eq_some_iff.mp ht
  rw [set_eq_take_append_cons_drop, if_pos hi]
  conv_rhs => rw [hsplit]
  unfold asked
  rw [filter_append, filter_append, filter_cons, filter_cons]
  split
  · simp
  · simp

/-- What both kinds of work leave as it is. -/
theorem Inv.worked (h : Inv B s) {i : Nat} (ht : s.tasks[i]? = some t)
    (htasks : u.tasks = s.tasks.set i { t with replied := true })
    (hplaced : u.Placed) (hmap : u.collectionMap = s.collectionMap) (hpid : u.cidPid = s.cidPid)
    (hcb : u.callbacks = s.callbacks) (hreplies : u.replies = s.replies)
    (hloader : u.loader = s.loader) (hfinished : u.finished = s.finished)
    (hstarted : u.started = s.started)
    (hcontents : ∀ t' ∈ s.tasks, t'.load = false → u.contents t'.cid = s.contents t'.cid)
    (hsaved : ∀ e ∈ s.started, ∀ spec, e.plan = .checkpoint spec → ∀ p part,
      e.parts[p]? = some (some part) → Saved B s e spec p part → Saved B u e spec p part) :
    Inv B u := by
  have hmem := mem_of_getElem? ht
  constructor
  · exact hplaced
  · rw [hstarted]
    exact h.ids
  · rw [hfinished, hstarted]
    exact h.known
  · intro t' ht'
    rw [htasks] at ht'
    rw [hstarted]
    rcases mem_or_eq_of_mem_set ht' with ht' | rfl
    · obtain ⟨e, he, hof⟩ := h.tasks t' ht'
      exact ⟨e, he, hof.congr (by rw [hpid]) hmap (by rw [hcb]) (hcontents t' ht')⟩
    · obtain ⟨e, he, hof⟩ := h.tasks t hmem
      have hof' := hof.congr (congrFun hpid t.cid) hmap (congrFun hcb t.cid) (hcontents t hmem)
      exact ⟨e, he, ⟨hof'.plan, hof'.cid, hof'.load, hof'.pid, hof'.node, hof'.callback, hof'.parts⟩⟩
  · rw [hreplies, htasks, asked_set ht]
    exact h.saves
  · rw [hloader, htasks, asked_set ht]
    exact h.loads
  · intro e he
    rw [hstarted] at he
    rw [hfinished, htasks, map_set_of_eq (c := { t with replied := true }) ht (·.planId) rfl]
    exact h.done e he
  · intro e he spec hspec p part hpart
    rw [hstarted] at he
    exact hsaved e he spec hspec p part hpart (h.saved e he spec hspec p part hpart)
  · unfold numParts
    rw [hstarted, hmap]
    exact h.whole

theorem Inv.checkPoint (h : Inv B s) (ht : s.tasks[i]? = some t) (hload : t.load = false)
    (hv : s.checkPoint B t = .ok v) :
    Inv B { v with tasks := v.tasks.set i { t with replied := true } } := by
  unfold CheckpointManager.checkPoint at hv
  cases hpart : s.partitions (t.nodeId, t.cid, t.partId) with
  | none =>
    rw [hpart] at hv
    cases hv
  | some part =>
    rw [hpart] at hv
    cases hv
    refine h.worked ht rfl h.placed rfl rfl rfl rfl rfl rfl rfl (fun _ _ _ => rfl) ?_
    intro e he spec hspec p x hx hsaved
    rcases hsaved with ⟨t', ht', hplan, hrep, hp, hurl⟩ | hwritten
    · by_cases heq : t' = t
      · -- the file that is written now
        subst heq
        obtain ⟨e', he', hof⟩ := h.tasks t' ht'
        obtain rfl := h.eq_of_plan he' he (hof.plan.trans hplan)
        obtain ⟨view, hview, hnode⟩ := hof.node
        have hget := Stored.getElem?_contents hview hnode
        rw [hof.parts hload, hp, hx, ← hp, hpart] at hget
        obtain rfl := Option.some.inj (Option.some.inj hget)
        refine .inr (mem_append_right _ (mem_singleton.mpr ?_))
        rw [hplan, hurl]
      · exact .inl ⟨t', mem_set_of_ne ht ht' heq, hplan, hrep, hp, hurl⟩
    · exact .inr (mem_append_left _ hwritten)

theorem Inv.loadCheckPoint (h : Inv B s) (ht : s.tasks[i]? = some t) (hload : t.load = true)
    (hv : s.loadCheckPoint B t = .ok v) :
    Inv B { v with tasks := v.tasks.set i { t with replied := true } } := by
  have hmem := mem_of_getElem? ht
  unfold CheckpointManager.loadCheckPoint at hv
  split at hv
  · cases hv
  · obtain ⟨_, -, hv⟩ := bind_eq_ok.mp hv
    split at hv
    · cases hv
    · next part hbin =>
      cases hv
      refine h.worked ht rfl ?_ rfl rfl rfl rfl rfl rfl rfl ?_ ?_
      · intro cid view p node hview hnode
        show (update s.partitions (t.nodeId, t.cid, t.partId) (some part)
          (node, cid, p)).isSome
        rw [update_apply]
        split
        · rfl
        · exact h.placed cid view p node hview hnode
      · -- a collection that is saved is not the one that is loaded
        intro t' ht' hload'
        have hc : t'.cid ≠ t.cid := by
          intro hc
          have hl := h.load_eq hmem ht' ((h.cid_iff hmem ht').mp hc)
          rw [hload, hload'] at hl
          cases hl
        refine Stored.contents_congr rfl fun node p => update_of_ne ?_ _ _
        intro hk
        exact hc (Prod.mk.inj (Prod.mk.inj hk).2).1
      · intro e he spec hspec p x _ hsaved
        rcases hsaved with ⟨t', ht', hplan, hrest⟩ | hwritten
        · by_cases heq : t' = t
          · subst heq
            obtain ⟨e', he', hof⟩ := h.tasks t' ht'
            obtain rfl := h.eq_of_plan he' he (hof.plan.trans hplan)
            have hl := hof.load
            rw [hspec, hload] at hl
            cases hl
          · exact .inl ⟨t', mem_set_of_ne ht ht' heq, hplan, hrest⟩
        · exact .inr hwritten

theorem Inv.work (h : Inv B s) (hu : s.work B i = .ok u) : Inv B u := by
  unfold CheckpointManager.work at hu
  cases ht : s.tasks[i]? with
  | none =>
    rw [ht] at hu
    cases hu
  | some t =>
    rw [ht] at hu
    obtain ⟨_, -, hu⟩ := bind_eq_ok.mp hu
    obtain ⟨v, hv, hu⟩ := bind_eq_ok.mp hu
    cases hu
    unfold handle at hv
    split at hv
    · next hload => exact h.loadCheckPoint ht hload hv
    · next hload => exact h.checkPoint ht (Bool.eq_false_iff.mpr hload) hv

/-! ## A reply arrives -/

theorem asked_erase (ht : l[i]? = some t) :
    (asked l t.load).Perm (t.cid :: asked (l.eraseIdx i) t.load) := by
  have hperm := ((perm_cons_of_getElem? ht).filter (·.load = t.load)).map (·.cid)
  rwa [filter_cons_of_pos (by simp), map_cons] at hperm

theorem asked_erase_other (ht : l[i]? = some t) {b : Bool} (hb : t.load ≠ b) :
    (asked l b).Perm (asked (l.eraseIdx i) b) := by
  have hperm := ((perm_cons_of_getElem? ht).filter (·.load = b)).map (·.cid)
  rwa [filter_cons_of_neg (by simpa using hb)] at hperm

/-- The last task of a collection is the last task of its plan. -/
theorem Inv.last_iff (h : Inv B s) (ht : s.tasks[i]? = some t) :
    t.cid ∉ asked (s.tasks.eraseIdx i) t.load ↔ t.planId ∉ (s.tasks.eraseIdx i).map (·.planId) := by
  have hmem := mem_of_getElem? ht
  rw [not_iff_not]
  constructor
  · intro hx
    obtain ⟨t', ht', hc⟩ := mem_map.mp hx
    have ht' := (mem_filter.mp ht').1
    have hp := (h.cid_iff hmem (mem_of_mem_eraseIdx ht')).mp hc
    exact mem_map.mpr ⟨t', ht', hp⟩
  · intro hx
    obtain ⟨t', ht', hp⟩ := mem_map.mp hx
    have ht'' := mem_of_mem_eraseIdx ht'
    refine mem_map.mpr ⟨t', mem_filter.mpr ⟨ht', ?_⟩, (h.cid_iff hmem ht'').mpr hp⟩
    exact decide_eq_true (h.load_eq hmem ht'' hp)

/-- The state after a reply: `finished` and `cidPid` change with the last one. -/
structure Replied (s u : CheckpointManager P) (i : Nat) (t : CheckpointTask) : Prop where
  stored : u.toStored = s.toStored
  tasks : u.tasks = s.tasks.eraseIdx i
  started : u.started = s.started
  written : u.written = s.written
  finished : u.finished = s.finished ++
    if t.planId ∈ (s.tasks.eraseIdx i).map (·.planId) then [] else [t.planId]
  cidPid : u.cidPid = if t.planId ∈ (s.tasks.eraseIdx i).map (·.planId) then s.cidPid
    else Function.update s.cidPid t.cid none
  callbacks : ∀ c, c ≠ t.cid ∨ t.planId ∈ (s.tasks.eraseIdx i).map (·.planId) →
    u.callbacks c = s.callbacks c
  files : u.files = s.files
  status : u.status = s.status
  replies : u.replies = if t.load then s.replies else s.replies.add t.cid
  loader : u.loader = if t.load then s.loader.add t.cid else s.loader

theorem Replied.inv (hr : Replied s u i t) (h : Inv B s) (ht : s.tasks[i]? = some t)
    (hrep : t.replied = true) : Inv B u := by
  have hmem := mem_of_getElem? ht
  have hsub : ∀ t' ∈ s.tasks.eraseIdx i, t' ∈ s.tasks := fun t' ht' => mem_of_mem_eraseIdx ht'
  obtain ⟨e₀, he₀, hof₀⟩ := h.tasks t hmem
  have hmap : u.collectionMap = s.collectionMap := congrArg Stored.collectionMap hr.stored
  constructor
  · rw [hr.stored]
    exact h.placed
  · rw [hr.started]
    exact h.ids
  · intro x hx
    rw [hr.finished] at hx
    rw [hr.started]
    rcases mem_append.mp hx with hx | hx
    · exact h.known x hx
    · split at hx
      · exact absurd hx not_mem_nil
      · obtain rfl := mem_singleton.mp hx
        exact mem_map.mpr ⟨e₀, he₀, hof₀.plan⟩
  · intro t' ht'
    rw [hr.tasks] at ht'
    rw [hr.started]
    obtain ⟨e, he, hof⟩ := h.tasks t' (hsub t' ht')
    -- either the plan goes on, or the task is of another collection
    have hcase : t'.cid ≠ t.cid ∨ t.planId ∈ (s.tasks.eraseIdx i).map (·.planId) := by
      by_cases hc : t'.cid = t.cid
      · exact .inr (mem_map.mpr ⟨t', ht', (h.cid_iff hmem (hsub t' ht')).mp hc⟩)
      · exact .inl hc
    refine ⟨e, he, hof.congr ?_ hmap (hr.callbacks _ hcase) fun _ => by rw [hr.stored]⟩
    rw [hr.cidPid]
    split
    · rfl
    · next hlast => exact update_of_ne (hcase.resolve_right hlast) _ _
  · rw [hr.replies, hr.tasks]
    cases hl : t.load with
    | true => exact h.saves.perm (asked_erase_other ht (by rw [hl]; exact Bool.false_ne_true.symm))
    | false => exact h.saves.add (hl ▸ asked_erase ht)
  · rw [hr.loader, hr.tasks]
    cases hl : t.load with
    | true => exact h.loads.add (hl ▸ asked_erase ht)
    | false => exact h.loads.perm (asked_erase_other ht (by rw [hl]; exact Bool.false_ne_true))
  · intro e he
    rw [hr.started] at he
    rw [hr.finished, hr.tasks, count_append, h.done e he]
    have hiff : e.planId ∈ s.tasks.map (·.planId) ↔
        e.planId = t.planId ∨ e.planId ∈ (s.tasks.eraseIdx i).map (·.planId) := by
      have hperm := (perm_cons_of_getElem? ht).map (·.planId)
      rw [hperm.mem_iff, map_cons, mem_cons]
    by_cases hp : e.planId = t.planId
    · rw [if_pos (hiff.mpr (.inl hp)), hp]
      split
      · rfl
      · simp
    · have hcount : (if t.planId ∈ (s.tasks.eraseIdx i).map (·.planId) then []
          else [t.planId]).count e.planId = 0 := by
        refine count_eq_zero.mpr fun hx => ?_
        split at hx
        · exact absurd hx not_mem_nil
        · exact hp (mem_singleton.mp hx)
      rw [hcount, Nat.add_zero]
      exact if_congr (hiff.trans (or_iff_right hp)) rfl rfl
  · intro e he spec hspec p part hpart
    rw [hr.started] at he
    rcases h.saved e he spec hspec p part hpart with ⟨t', ht', hplan, hnot, hrest⟩ | hx
    · refine .inl ⟨t', ?_, hplan, hnot, hrest⟩
      rw [hr.tasks]
      have hne : t' ≠ t := by
        rintro rfl
        rw [hrep] at hnot
        cases hnot
      have hperm := perm_cons_of_getElem? ht
      exact (mem_cons.mp (hperm.mem_iff.mp ht')).resolve_left hne
    · exact .inr (hr.written ▸ hx)
  · unfold numParts
    rw [hr.started, hmap]
    exact h.whole

/-- **A reply is counted**; it never fails. -/
theorem Inv.reply_ok (h : Inv B s) (ht : s.tasks[i]? = some t) (hrep : t.replied = true) :
    ∃ u, s.reply i = .ok u ∧ Replied s u i t := by
  obtain ⟨e, -, hof⟩ := h.tasks t (mem_of_getElem? ht)
  have hlast := h.last_iff ht
  have hpid : (s.cidPid t.cid).getD 0 = t.planId := by rw [hof.pid]; rfl
  have hreply : s.reply i = { s with tasks := s.tasks.eraseIdx i }.collect t := by
    unfold reply
    rw [ht]
    simp only
    rw [check_pos hrep]
    rfl
  rw [hreply]
  unfold collect
  cases hl : t.load with
  | false =>
    have hfull := h.saves.full_add (hl ▸ asked_erase ht)
    rw [hl] at hlast
    refine ⟨_, if_neg Bool.false_ne_true, ?_⟩
    unfold finishCheckpoint
    by_cases hf : t.planId ∈ (s.tasks.eraseIdx i).map (·.planId)
    · rw [if_neg (show ¬ (s.replies.add t.cid).Full t.cid from
        fun hx => hlast.mp (hfull.mp hx) hf)]
      exact ⟨rfl, rfl, rfl, rfl, by rw [if_pos hf, append_nil], (if_pos hf).symm,
        fun _ _ => rfl, rfl, rfl, by rw [hl]; rfl, by rw [hl]; rfl⟩
    · rw [if_pos (show (s.replies.add t.cid).Full t.cid from hfull.mpr (hlast.mpr hf))]
      refine ⟨rfl, rfl, rfl, rfl, ?_, (if_neg hf).symm, fun _ _ => rfl, rfl, rfl, by rw [hl]; rfl,
        by rw [hl]; rfl⟩
      rw [if_neg hf]
      exact congrArg (fun x => s.finished ++ [x]) hpid
  | true =>
    have hfull := h.loads.full_add (hl ▸ asked_erase ht)
    rw [hl] at hlast
    rw [if_pos rfl]
    unfold finishLoadCheckpoint
    by_cases hf : t.planId ∈ (s.tasks.eraseIdx i).map (·.planId)
    · rw [if_neg (show ¬ (s.loader.add t.cid).Full t.cid from
        fun hx => hlast.mp (hfull.mp hx) hf)]
      exact ⟨_, rfl, rfl, rfl, rfl, rfl, by rw [if_pos hf, append_nil], (if_pos hf).symm,
        fun _ _ => rfl, rfl, rfl, by rw [hl]; rfl, by rw [hl]; rfl⟩
    · rw [if_pos (show (s.loader.add t.cid).Full t.cid from hfull.mpr (hlast.mpr hf)),
        check_pos (hof.callback hl)]
      refine ⟨_, rfl, rfl, rfl, rfl, rfl, ?_, (if_neg hf).symm, fun c hc => ?_, rfl, rfl,
        by rw [hl]; rfl, by rw [hl]; rfl⟩
      · rw [if_neg hf]
        exact congrArg (fun x => s.finished ++ [x]) hpid
      · exact update_of_ne (hc.resolve_right hf) _ _

theorem Inv.replied (h : Inv B s) (hu : s.reply i = .ok u) :
    ∃ x, s.tasks[i]? = some x ∧ x.replied = true ∧ Replied s u i x := by
  have hu' := hu
  unfold reply at hu
  cases hx : s.tasks[i]? with
  | none =>
    rw [hx] at hu
    cases hu
  | some x =>
    rw [hx] at hu
    obtain ⟨_, hrep, -⟩ := bind_eq_ok.mp hu
    rw [check_eq_ok] at hrep
    obtain ⟨v, hv, hr⟩ := h.reply_ok hx hrep
    obtain rfl := Except.ok.inj (hv.symm.trans hu')
    exact ⟨x, rfl, hrep, hr⟩

theorem Inv.reply (h : Inv B s) (hu : s.reply i = .ok u) : Inv B u := by
  obtain ⟨x, hx, hrep, hr⟩ := h.replied hu
  exact hr.inv h hx hrep

/-! ## Every run -/

theorem Inv.update (h : Inv B s) {cid : Int} {parts : List P} (hfree : s.Free cid parts.length) :
    Inv B { s with toStored := s.put cid parts } := by
  obtain ⟨hpid, view, hview, hlen, -⟩ := hfree
  refine ⟨h.placed.put hview hlen.symm, h.ids, h.known, fun t ht => ?_, h.saves, h.loads, h.done,
    h.saved, ?_⟩
  rotate_left
  · unfold numParts
    rw [Stored.collectionMap_put]
    exact h.whole
  obtain ⟨e, he, hof⟩ := h.tasks t ht
  refine ⟨e, he, hof.congr rfl Stored.collectionMap_put rfl fun _ => ?_⟩
  exact Stored.contents_put_of_ne (h.cid_ne hpid ht)

theorem Inv.step (h : Inv B s) {e : CheckpointPlanEvent P} (ha : s.Apart e)
    (hu : step B s e = .ok u) : Inv B u := by
  cases e with
  | checkpoint planId spec => exact h.checkpoint ha hu
  | loadCheckpoint planId spec => exact h.loadCheckpoint ha hu
  | work i => exact h.work hu
  | reply i => exact h.reply hu
  | update cid parts =>
    cases hu
    exact h.update ha
  | interval cid url parts =>
    cases hu
    exact ⟨h.placed, h.ids, h.known, fun t ht => (h.tasks t ht).imp fun e he =>
      ⟨he.1, he.2.congr rfl rfl rfl fun _ => rfl⟩, h.saves, h.loads, h.done, h.saved, h.whole⟩

theorem reachable_inv {init : CheckpointManager P} (h0 : init.Fresh)
    (hs : Reach (CheckpointManager.step B) Apart init s) : Inv B s :=
  hs.induct (P := Inv B) (.of_fresh h0) fun _ _ _ _ hi ha hstep => hi.step ha hstep

/-- A task that the worker has not done can be done. -/
theorem Inv.checkPoint_ok (h : Inv B s) (ht : t ∈ s.tasks) : ∃ v, s.checkPoint B t = .ok v := by
  obtain ⟨e, -, hof⟩ := h.tasks t ht
  obtain ⟨view, hview, hnode⟩ := hof.node
  obtain ⟨part, hpart⟩ := Option.isSome_iff_exists.mp
    (h.placed t.cid view t.partId t.nodeId hview hnode)
  unfold CheckpointManager.checkPoint
  rw [hpart]
  exact ⟨_, rfl⟩

theorem work_eq (ht : s.tasks[i]? = some t) (hrep : t.replied = false) (hv : s.handle B t = .ok v) :
    s.work B i = .ok { v with tasks := v.tasks.set i { t with replied := true } } := by
  unfold work
  rw [ht]
  simp only
  rw [check_pos hrep]
  show (s.handle B t >>= _) = _
  rw [hv]
  rfl

/-- What is still to be done: a command that is not done also leads to a reply. -/
def left (s : CheckpointManager P) : Nat :=
  s.tasks.length + s.tasks.countP fun t => !t.replied

/-- The task of a checkpoint plan can go on, and less is left. -/
theorem Inv.goes_on (h : Inv B s) (ht : s.tasks[i]? = some t) (hload : t.load = false) :
    ∃ a u, CheckpointManager.step B s a = .ok u ∧ u.left < s.left := by
  obtain ⟨hi, hti⟩ := List.getElem?_eq_some_iff.mp ht
  cases hrep : t.replied with
  | false =>
    obtain ⟨v, hv⟩ := h.checkPoint_ok (mem_of_getElem? ht)
    have htasks : v.tasks = s.tasks := by
      unfold CheckpointManager.checkPoint at hv
      split at hv
      · cases hv
      · cases hv
        rfl
    have hhandle : s.handle B t = .ok v := by
      unfold handle
      rw [if_neg (by rw [hload]; exact Bool.false_ne_true), hv]
    refine ⟨.work i, { v with tasks := v.tasks.set i { t with replied := true } }, ?_, ?_⟩
    · exact work_eq ht hrep hhandle
    · show (v.tasks.set i _).length + (v.tasks.set i _).countP _ < _
      have hcount : (s.tasks.set i { t with replied := true }).countP (fun t => !t.replied) =
          s.tasks.countP (fun t => !t.replied) - 1 := by
        rw [countP_set hi, hti]
        simp [hrep]
      have hpos : 0 < s.tasks.countP fun t => !t.replied :=
        countP_pos_iff.mpr ⟨t, mem_of_getElem? ht, by simp [hrep]⟩
      rw [htasks, length_set, hcount]
      unfold left
      omega
  | true =>
    obtain ⟨u, hu, hr⟩ := h.reply_ok ht hrep
    refine ⟨.reply i, u, hu, ?_⟩
    have hle : (s.tasks.eraseIdx i).countP (fun t => !t.replied) ≤
        s.tasks.countP fun t => !t.replied := (eraseIdx_sublist _ _).countP_le
    unfold left
    rw [hr.tasks, length_eraseIdx_of_lt hi]
    omega

end CheckpointManager

open CheckpointManager in
/-- **A checkpoint plan finishes once**, when its files are written, if no other plan of its collection
is started while it is under way. -/
theorem checkpoint_plans_finish (B : PartBin P) (init s : CheckpointManager P) (h0 : init.Fresh)
    (hs : Reach (CheckpointManager.step B) Apart init s) (e : CheckpointStarted P)
    (he : e ∈ s.started) (spec : CheckpointSpec String) (hspec : e.plan = .checkpoint spec) :
    s.finished.count e.planId ≤ 1 ∧
    (e.planId ∈ s.finished ↔ ∀ t ∈ s.tasks, t.planId ≠ e.planId) ∧
    e.parts.length = s.numParts spec.cid ∧
    (e.planId ∈ s.finished → ∀ p < e.parts.length, ∃ part, e.parts[p]? = some (some part) ∧
      (e.planId, getCheckpointUrl spec.url spec.cid p, B.toBin part) ∈ s.written) ∧
    ∀ (i : Nat) (t : CheckpointTask), s.tasks[i]? = some t → t.planId = e.planId →
      ∃ a u, CheckpointManager.step B s a = .ok u ∧ u.left < s.left := by
  have h := reachable_inv h0 hs
  have hdone := h.done e he
  have hwhole := h.whole e he
  have hiff : e.planId ∈ s.finished ↔ ∀ t ∈ s.tasks, t.planId ≠ e.planId := by
    rw [← count_pos_iff, hdone]
    constructor
    · intro hpos t ht hp
      rw [if_pos (mem_map.mpr ⟨t, ht, hp⟩)] at hpos
      omega
    · intro hno
      rw [if_neg fun hx => ?_]
      · omega
      · obtain ⟨t, ht, hp⟩ := mem_map.mp hx
        exact hno t ht hp
  refine ⟨?_, hiff, ?_, ?_, ?_⟩
  · rw [hdone]
    split <;> omega
  · rw [hwhole.1, hspec]
    rfl
  · intro hfin p hp
    obtain ⟨part, hpart⟩ := Option.isSome_iff_exists.mp (hwhole.2 _ (getElem_mem hp))
    have hget : e.parts[p]? = some (some part) := by rw [getElem?_eq_getElem hp, hpart]
    refine ⟨part, hget, ?_⟩
    rcases h.saved e he spec hspec p part hget with ⟨t, ht, hplan, -⟩ | hx
    · exact absurd hplan (hiff.mp hfin t ht)
    · exact hx
  · intro i t ht hp
    obtain ⟨e', he', hof⟩ := h.tasks t (mem_of_getElem? ht)
    obtain rfl := h.eq_of_plan he' he (hof.plan.trans hp)
    refine h.goes_on ht ?_
    rw [← hof.load, hspec]
    rfl

/-- Partitions that are numbers, written in unary. -/
def unaryBin : PartBin Nat where
  toBin n := List.replicate (n + 1) 0
  fromBin bin := some (bin.length - 1)
  fromBin_toBin n := by simp

/-- A collection with one partition, on node 1. -/
def onePartition : CheckpointManager Nat where
  collectionMap cid := if cid = 7 then some [1] else none
  partitions k := if k = (1, 7, 0) then some 5 else none
  cidPid _ := none
  replies := ⟨fun _ => 0, fun _ => 0⟩
  loader := ⟨fun _ => 0, fun _ => 0⟩
  callbacks _ := false
  status := .empty
  files _ := none
  tasks := []
  finished := []
  started := []
  written := []

theorem onePartition_fresh : onePartition.Fresh := by
  refine ⟨fun cid view p node hview hnode => ?_, rfl, rfl, rfl⟩
  change (if cid = 7 then some [1] else none) = some view at hview
  split at hview
  · next hc =>
    subst hc
    obtain rfl := Option.some.inj hview
    obtain ⟨hlt, hget⟩ := List.getElem?_eq_some_iff.mp hnode
    obtain rfl : p = 0 := by simpa using hlt
    obtain rfl : node = 1 := hget.symm
    rfl
  · cases hview

theorem checkpoint_plans_finish_inTurn :
    ∃ s : CheckpointManager Nat, s.finished.count 0 = 1 ∧ s.finished.count 1 = 1 ∧
      ∃ part, (1, getCheckpointUrl "b" 7 0, unaryBin.toBin part) ∈ s.written := by
  have hrun : Ends (CheckpointManager.step unaryBin) onePartition
      [.checkpoint 0 ⟨7, "a"⟩, .work 0, .reply 0, .checkpoint 1 ⟨7, "b"⟩, .work 0, .reply 0]
      fun s => s.finished = [0, 1] ∧
        s.started = [⟨0, .checkpoint ⟨7, "a"⟩, [some 5]⟩, ⟨1, .checkpoint ⟨7, "b"⟩, [some 5]⟩] := by
    decide +kernel
  have hok : RunOk (CheckpointManager.step unaryBin) CheckpointManager.Apart onePartition
      [.checkpoint 0 ⟨7, "a"⟩, .work 0, .reply 0, .checkpoint 1 ⟨7, "b"⟩, .work 0, .reply 0] := by
    decide +kernel
  obtain ⟨s, hs, hfin, hstarted⟩ := hrun
  have hall := checkpoint_plans_finish unaryBin onePartition s onePartition_fresh
    (reach_of_run_ok _ hok hs) ⟨1, .checkpoint ⟨7, "b"⟩, [some 5]⟩ (by rw [hstarted]; simp)
    ⟨7, "b"⟩ rfl
  obtain ⟨part, -, hpart⟩ := hall.2.2.2.1 (by rw [hfin]; decide) 0 (by decide)
  exact ⟨s, by rw [hfin]; decide, by rw [hfin]; decide, part, hpart⟩

/-- Two plans of one collection: the first reply finishes plan 1, of which nothing is written; plan 0
never finishes. -/
theorem overlapping_checkpoints :
    Ends (CheckpointManager.step unaryBin) onePartition
      [.checkpoint 0 ⟨7, "a"⟩, .checkpoint 1 ⟨7, "b"⟩, .work 0, .reply 0]
      (fun s => s.finished = [1] ∧ s.written.map (·.1) = [0]) ∧
    Ends (CheckpointManager.step unaryBin) onePartition
      [.checkpoint 0 ⟨7, "a"⟩, .checkpoint 1 ⟨7, "b"⟩, .work 0, .reply 0, .work 0, .reply 0]
      (fun s => s.tasks = [] ∧ s.finished = [1]) := by
  constructor
  · decide +kernel
  · decide +kernel

end Tangram
