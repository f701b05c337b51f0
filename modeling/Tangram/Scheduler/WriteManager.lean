import Tangram.Lib.Bag
import Tangram.Lib.Gather
import Tangram.Plan.Spec
import Tangram.Scheduler.FileTask
import Tangram.Storage.Urls

/-!
# Write plans

`Write` (`core/plan/write.hpp`), the write functions of `FunctionStore`
(`core/plan/function_store.cpp`), `WriteManager` (`core/scheduler/write_manager.cpp`)
and `Worker::WritePartition`, as far as the scheduler runs them beside other plans
(`CollectionStatus`).

All plans register their function at the start, by collection, and a collection
keeps the first one.  So a plan writes what the first `Write` plan of its collection
in the program would write:

    the files of plan q hold what q writes
      ↔ the first Write plan of the collection writes the same for it    (write_files_iff)
-/

namespace Tangram

open StepRun FileTask List Function

variable {T : Type}

/-- The plan `Write<T>`. -/
structure WritePlan (T : Type) where
  planId : Int
  collectionId : Int
  url : String
  writeObj : T → String

namespace WritePlan

/-- `GetSpec`. -/
def getSpec (q : WritePlan T) : SpecWrapper.Spec String Unit := .write ⟨q.collectionId, q.url⟩

end WritePlan

/-! ## Write functions -/

/-- The loop over the partition in the function that `Register` adds. -/
def writePart (writeObj : T → String) (part : List T) : String :=
  part.foldl (fun ss elem => ss ++ writeObj elem) ""

theorem writePart_eq (writeObj : T → String) (part : List T) :
    writePart writeObj part = String.join (part.map writeObj) := by
  unfold writePart String.join
  rw [foldl_map]

namespace FunctionStore

/-- `write_part_.insert({id, func})`. -/
def addWritePart (m : Int → Option (T → String)) (id : Int) (func : T → String) :
    Int → Option (T → String) :=
  if (m id).isSome then m else Function.update m id (some func)

/-- The plans of the program register. -/
def register (plans : List (WritePlan T)) : Int → Option (T → String) :=
  plans.foldl (fun m q => addWritePart m q.collectionId q.writeObj) fun _ => none

/-- **The first plan of a collection is the one that counts.** -/
theorem register_eq (plans : List (WritePlan T)) (cid : Int) :
    register plans cid = (plans.find? fun q => q.collectionId = cid).map (·.writeObj) := by
  have hfrom : ∀ m : Int → Option (T → String),
      plans.foldl (fun m q => addWritePart m q.collectionId q.writeObj) m cid =
        (m cid).or ((plans.find? fun q => q.collectionId = cid).map (·.writeObj)) := by
    induction plans with
    | nil =>
      intro m
      exact Option.or_none.symm
    | cons q plans ih =>
      intro m
      rw [foldl_cons, ih, find?_cons]
      unfold addWritePart
      by_cases hq : q.collectionId = cid
      · subst hq
        simp only [decide_true]
        cases hm : m q.collectionId with
        | none => simp
        | some f => simp [hm]
      · have hkeep : (if (m q.collectionId).isSome then m
            else update m q.collectionId (some q.writeObj)) cid = m cid := by
          split
          · rfl
          · exact update_of_ne (Ne.symm hq) _ _
        rw [hkeep, decide_eq_false hq]
  exact hfrom _

end FunctionStore

/-! ## The manager -/

inductive WriteCheck
  | program | status (e : StatusCheck) | collectionMap
  | has | writePart
  | noTask | noMessage
deriving DecidableEq, Repr

/-- The manager with the status of the scheduler, the files and the tasks; `finishing` are the
`kFinishPlan` messages under way. -/
structure WriteManager (T : Type) extends Stored (List T) where
  cidPid : Int → Int
  replies : Gather.Counter Int
  status : CollectionStatus
  files : String → Option String
  tasks : List FileTask
  finishing : List Int

/-- A `Write` plan runs, a worker writes, its reply arrives, `kFinishPlan` arrives.  Other plans
run and finish, and change what they write. -/
inductive WriteEvent (T : Type)
  | write (planId : Int)
  | work (i : Nat)
  | reply (i : Nat)
  | finish (i : Nat)
  | other (planId : Int) (rw : ReadWriteVector)
  | finishOther (planId : Int)
  | update (cid : Int) (parts : List (List T))
deriving DecidableEq, Repr

namespace WriteManager

/-- `RunPlan` for a `Write` plan, with `WriteManager::Write`. -/
def write (plans : List (WritePlan T)) (s : WriteManager T) (planId : Int) :
    Except WriteCheck (WriteManager T) :=
  match plans.find? fun q => q.planId = planId with
  | none => .error .program
  | some q => do
    let status ← (s.status.addPlan planId q.getSpec.getReadWrite).mapError .status
    match s.collectionMap q.collectionId with
    | none => .error .collectionMap
    | some view => .ok { s with
        status := status
        cidPid := Function.update s.cidPid q.collectionId planId
        replies := s.replies.expect q.collectionId view.length
        tasks := s.tasks ++ commands view planId q.collectionId fun i => writeUrl q.url i }

/-- `Worker::WritePartition`. -/
def writePartition (plans : List (WritePlan T)) (s : WriteManager T) (t : FileTask) :
    Except WriteCheck (WriteManager T) :=
  match s.partitions (t.nodeId, t.cid, t.partId), FunctionStore.register plans t.cid with
  | none, _ => .error .has
  | some _, none => .error .writePart
  | some part, some f => .ok { s with
      files := Function.update s.files t.destUrl (some (writePart f part)) }

def work (plans : List (WritePlan T)) (s : WriteManager T) (i : Nat) :
    Except WriteCheck (WriteManager T) :=
  match s.tasks[i]? with
  | none => .error .noTask
  | some t => do
    check .noTask (t.replied = false)
    let s ← s.writePartition plans t
    return { s with tasks := s.tasks.set i { t with replied := true } }

def finishWritePartition (s : WriteManager T) (cid : Int) : WriteManager T :=
  let s := { s with replies := s.replies.add cid }
  if s.replies.Full cid then { s with finishing := s.finishing ++ [s.cidPid cid] } else s

def reply (s : WriteManager T) (i : Nat) : Except WriteCheck (WriteManager T) :=
  match s.tasks[i]? with
  | none => .error .noTask
  | some t => do
    check .noTask (t.replied = true)
    return { s with tasks := s.tasks.eraseIdx i }.finishWritePartition t.cid

/-- `kFinishPlan`. -/
def finish (s : WriteManager T) (i : Nat) : Except WriteCheck (WriteManager T) :=
  match s.finishing[i]? with
  | none => .error .noMessage
  | some planId => do
    let status ← (s.status.finishPlan planId).mapError .status
    return { s with status := status, finishing := s.finishing.eraseIdx i }

def step (plans : List (WritePlan T)) (s : WriteManager T) :
    WriteEvent T → Except WriteCheck (WriteManager T)
  | .write planId => s.write plans planId
  | .work i => s.work plans i
  | .reply i => s.reply i
  | .finish i => s.finish i
  | .other planId rw => do
    let status ← (s.status.addPlan planId rw).mapError .status
    return { s with status := status }
  | .finishOther planId => do
    let status ← (s.status.finishPlan planId).mapError .status
    return { s with status := status }
  | .update cid parts => .ok { s with toStored := s.put cid parts }

/-- The number of partitions of a collection. -/
def numParts (s : WriteManager T) (cid : Int) : Nat := ((s.collectionMap cid).getD []).length

/-- No two `Write` plans with the same url run at once; what changes a collection is a running plan
that writes it and is no `Write` plan. -/
def Apart (plans : List (WritePlan T)) (s : WriteManager T) : WriteEvent T → Prop
  | .write planId => ∀ q ∈ plans, q.planId = planId →
      ∀ q' ∈ plans, q'.planId ∈ s.status.curPlans.keys → q'.url ≠ q.url
  | .other planId _ => planId ∉ plans.map (·.planId)
  | .finishOther planId => planId ∉ plans.map (·.planId)
  | .update cid parts => parts.length = s.numParts cid ∧ (s.collectionMap cid).isSome ∧
      ∃ id ∈ s.status.curPlans.keys.elems, id ∉ plans.map (·.planId) ∧ cid ∈ (s.status.rw id).second
  | _ => True

instance (plans : List (WritePlan T)) (s : WriteManager T) :
    (e : WriteEvent T) → Decidable (s.Apart plans e)
  | .write planId => inferInstanceAs (Decidable (∀ q ∈ plans, q.planId = planId →
      ∀ q' ∈ plans, q'.planId ∈ s.status.curPlans.keys → q'.url ≠ q.url))
  | .other planId _ | .finishOther planId =>
    inferInstanceAs (Decidable (planId ∉ plans.map (·.planId)))
  | .update cid parts => inferInstanceAs (Decidable (parts.length = s.numParts cid ∧
      (s.collectionMap cid).isSome ∧ ∃ id ∈ s.status.curPlans.keys.elems,
        id ∉ plans.map (·.planId) ∧ cid ∈ (s.status.rw id).second))
  | .work _ | .reply _ | .finish _ => inferInstanceAs (Decidable True)

/-- No plan has run. -/
structure Fresh (s : WriteManager T) : Prop where
  status : s.status = .empty
  tasks : s.tasks = []
  finishing : s.finishing = []

/-! ## Tasks and plans -/

def Running (s : WriteManager T) (q : WritePlan T) : Prop := q.planId ∈ s.status.curPlans.keys

structure TaskOf (s : WriteManager T) (q : WritePlan T) (t : FileTask) : Prop where
  plan : q.planId = t.planId
  cid : q.collectionId = t.cid
  pid : s.cidPid t.cid = t.planId
  node : ∃ view, s.collectionMap t.cid = some view ∧ view[t.partId]? = some t.nodeId
  url : t.destUrl = writeUrl q.url t.partId

/-- The file of a partition has what the function of the collection writes, or the worker still has
to write it. -/
def Written (plans : List (WritePlan T)) (s : WriteManager T) (q : WritePlan T) (p : Nat)
    (part : List T) : Prop :=
  (∃ t ∈ s.tasks, t.planId = q.planId ∧ t.partId = p ∧ t.replied = false) ∨
    s.files (writeUrl q.url p) = (FunctionStore.register plans q.collectionId).map (writePart · part)

structure Inv (plans : List (WritePlan T)) (s : WriteManager T) : Prop where
  status : s.status.Inv
  rw : ∀ q ∈ plans, s.Running q → s.status.rw q.planId = ⟨[], [q.collectionId]⟩
  urls : ∀ q ∈ plans, ∀ q' ∈ plans, s.Running q → s.Running q' → q.url = q'.url → q = q'
  tasks : ∀ t ∈ s.tasks, ∃ q ∈ plans, s.Running q ∧ s.TaskOf q t
  counts : Gather.Inv s.replies (s.tasks.map (·.cid))
  finishing : ∀ x ∈ s.finishing, ∃ q ∈ plans, q.planId = x ∧ s.Running q ∧
    ∀ t ∈ s.tasks, t.planId ≠ x
  nodup : s.finishing.Nodup
  files : ∀ q ∈ plans, s.Running q → ∀ view, s.collectionMap q.collectionId = some view →
    ∀ p node part, view[p]? = some node → s.partitions (node, q.collectionId, p) = some part →
      Written plans s q p part

variable {plans : List (WritePlan T)} {s u : WriteManager T} {t t' : FileTask} {q q' : WritePlan T}
  {st : CollectionStatus} {planId : Int}

theorem Inv.of_fresh (h : s.Fresh) : Inv plans s := by
  have hnot : ∀ q, ¬ s.Running q := by
    intro q hq
    unfold Running at hq
    rw [h.status] at hq
    exact OrdSet.notMem_empty _ hq
  refine ⟨?_, fun q _ hq => absurd hq (hnot q), fun q _ q' _ hq => absurd hq (hnot q),
    fun t ht => ?_, ?_, fun x hx => ?_, ?_, fun q _ hq => absurd hq (hnot q)⟩
  · rw [h.status]
    exact CollectionStatus.inv_empty
  · rw [h.tasks] at ht
    exact absurd ht not_mem_nil
  · rw [h.tasks]
    exact Gather.inv_nil _
  · rw [h.finishing] at hx
    exact absurd hx not_mem_nil
  · rw [h.finishing]
    exact nodup_nil

/-- The tasks of a collection are those of a plan. -/
theorem Inv.cid_iff (h : Inv plans s) (hids : (plans.map (·.planId)).Nodup) (ht : t ∈ s.tasks)
    (ht' : t' ∈ s.tasks) : t'.cid = t.cid ↔ t'.planId = t.planId := by
  obtain ⟨q, hq, hr, hof⟩ := h.tasks t ht
  obtain ⟨q', hq', hr', hof'⟩ := h.tasks t' ht'
  constructor
  · intro hc
    rw [← hof'.pid, hc, hof.pid]
  · intro hp
    have hqq : q' = q := inj_on_of_nodup_map hids hq' hq (by rw [hof'.plan, hof.plan, hp])
    rw [← hof'.cid, ← hof.cid, hqq]

theorem TaskOf.congr (h : s.TaskOf q t) (hpid : u.cidPid t.cid = s.cidPid t.cid)
    (hmap : u.collectionMap = s.collectionMap) : u.TaskOf q t :=
  ⟨h.plan, h.cid, hpid.trans h.pid, by rw [hmap]; exact h.node, h.url⟩

/-! ## Plans start and finish -/

/-- Only the plans that run change, and no `Write` plan starts. -/
theorem Inv.restatus (h : Inv plans s) {l : List Int} (hst : st.Inv)
    (hsub : ∀ q ∈ plans, q.planId ∈ st.curPlans.keys → s.Running q)
    (hrw : ∀ q ∈ plans, q.planId ∈ st.curPlans.keys → st.rw q.planId = s.status.rw q.planId)
    (htasks : ∀ t ∈ s.tasks, ∀ q ∈ plans, q.planId = t.planId → q.planId ∈ st.curPlans.keys)
    (hl : l.Sublist s.finishing) (hfin : ∀ x ∈ l, x ∈ st.curPlans.keys) :
    Inv plans { s with status := st, finishing := l } := by
  refine ⟨hst, fun q hq hr => ?_, fun q hq q' hq' hr hr' => ?_, fun t ht => ?_, h.counts,
    fun x hx => ?_, hl.nodup h.nodup, fun q hq hr => h.files q hq (hsub q hq hr)⟩
  · exact (hrw q hq hr).trans (h.rw q hq (hsub q hq hr))
  · exact h.urls q hq q' hq' (hsub q hq hr) (hsub q' hq' hr')
  · obtain ⟨q, hq, -, hof⟩ := h.tasks t ht
    exact ⟨q, hq, htasks t ht q hq hof.plan, hof.congr rfl rfl⟩
  · obtain ⟨q, hq, rfl, -, hno⟩ := h.finishing x (hl.subset hx)
    exact ⟨q, hq, rfl, hfin _ hx, hno⟩

theorem Inv.other (h : Inv plans s) {rw : ReadWriteVector} (hnot : planId ∉ plans.map (·.planId))
    (hst : s.status.addPlan planId rw = .ok st) : Inv plans { s with status := st } := by
  obtain ⟨hinv, -, hmem, hrw⟩ := CollectionStatus.addPlan_plans h.status hst
  have hne : ∀ q ∈ plans, q.planId ≠ planId := fun q hq hx => hnot (hx ▸ mem_map_of_mem hq)
  have hold : ∀ x, x ∈ s.status.curPlans.keys → x ∈ st.curPlans.keys := fun x hx =>
    (hmem x).mpr (.inr hx)
  refine h.restatus hinv (fun q hq hr => ((hmem _).mp hr).resolve_left (hne q hq))
    (fun q hq _ => ?_) (fun t ht q hq hp => ?_) (List.Sublist.refl _) fun x hx => ?_
  · rw [hrw, if_neg (hne q hq)]
  · obtain ⟨q', -, hr, hof⟩ := h.tasks t ht
    rw [hp, ← hof.plan]
    exact hold _ hr
  · obtain ⟨q, -, rfl, hr, -⟩ := h.finishing x hx
    exact hold _ hr

/-- A plan without tasks finishes. -/
theorem Inv.ended (h : Inv plans s) {l : List Int} (hno : ∀ t ∈ s.tasks, t.planId ≠ planId)
    (hl : l.Sublist s.finishing) (hnot : planId ∉ l) (hst : s.status.finishPlan planId = .ok st) :
    Inv plans { s with status := st, finishing := l } := by
  obtain ⟨hinv, hmem, hrw⟩ := CollectionStatus.finishPlan_plans h.status hst
  refine h.restatus hinv (fun q hq hr => ((hmem _).mp hr).2) (fun q hq hr => ?_)
    (fun t ht q hq hp => ?_) hl fun x hx => ?_
  · exact hrw _ ((hmem _).mp hr).1
  · obtain ⟨q', -, hr, hof⟩ := h.tasks t ht
    rw [hp]
    exact (hmem _).mpr ⟨hno t ht, hof.plan ▸ hr⟩
  · obtain ⟨q, -, rfl, hr, -⟩ := h.finishing x (hl.subset hx)
    refine (hmem _).mpr ⟨?_, hr⟩
    rintro heq
    exact hnot (heq ▸ hx)

theorem Inv.finish (h : Inv plans s) {i : Nat} (hu : s.finish i = .ok u) : Inv plans u := by
  unfold WriteManager.finish at hu
  cases hx : s.finishing[i]? with
  | none =>
    rw [hx] at hu
    cases hu
  | some planId =>
    rw [hx] at hu
    obtain ⟨st, hst, hu⟩ := bind_eq_ok.mp hu
    cases hu
    obtain ⟨-, -, -, -, hno⟩ := h.finishing planId (mem_of_getElem? hx)
    have hnot : planId ∉ s.finishing.eraseIdx i := by
      have hnd := (perm_cons_of_getElem? hx).nodup_iff.mp h.nodup
      exact (nodup_cons.mp hnd).1
    exact h.ended hno (eraseIdx_sublist _ _) hnot (mapError_eq_ok.mp hst)

theorem Inv.finishOther (h : Inv plans s) (hnot : planId ∉ plans.map (·.planId))
    (hst : s.status.finishPlan planId = .ok st) : Inv plans { s with status := st } := by
  refine h.ended (fun t ht hx => ?_) (List.Sublist.refl _) (fun hx => ?_) hst
  · obtain ⟨q, hq, -, hof⟩ := h.tasks t ht
    exact hnot (mem_map.mpr ⟨q, hq, hof.plan.trans hx⟩)
  · obtain ⟨q, hq, rfl, -⟩ := h.finishing planId hx
    exact hnot (mem_map_of_mem hq)

theorem Inv.write (h : Inv plans s) (hids : (plans.map (·.planId)).Nodup)
    (ha : s.Apart plans (.write planId)) (hu : s.write plans planId = .ok u) : Inv plans u := by
  unfold WriteManager.write at hu
  cases hfind : plans.find? fun q => q.planId = planId with
  | none =>
    rw [hfind] at hu
    cases hu
  | some q =>
    rw [hfind] at hu
    obtain ⟨st, hst, hu⟩ := bind_eq_ok.mp hu
    cases hview : s.collectionMap q.collectionId with
    | none =>
      rw [hview] at hu
      cases hu
    | some view =>
      rw [hview] at hu
      cases hu
      have hq : q ∈ plans := mem_of_find?_eq_some hfind
      obtain rfl : q.planId = planId := by simpa using find?_some hfind
      obtain ⟨hinv, hnew, hmem, hrw⟩ :=
        CollectionStatus.addPlan_plans h.status (mapError_eq_ok.mp hst)
      have hold : ∀ x, x ∈ s.status.curPlans.keys → x ∈ st.curPlans.keys := fun x hx =>
        (hmem x).mpr (.inr hx)
      have hcase : ∀ q' ∈ plans, q'.planId ∈ st.curPlans.keys → q' = q ∨ s.Running q' := by
        intro q' hq' hr
        rcases (hmem _).mp hr with hx | hx
        · exact .inl (inj_on_of_nodup_map hids hq' hq hx)
        · exact .inr hx
      have hself : st.rw q.planId = ⟨[], [q.collectionId]⟩ := by
        rw [hrw, if_pos rfl]
        rfl
      -- no other running plan has the collection
      have hcid : ∀ q' ∈ plans, s.Running q' → q'.collectionId ≠ q.collectionId := by
        intro q' hq' hr hc
        have hne : q'.planId ≠ q.planId := fun hx => hnew (hx ▸ hr)
        refine hinv.disjoint _ (hold _ hr) _ ((hmem _).mpr (.inl rfl)) hne q.collectionId ?_ ?_
        · rw [hrw, if_neg hne, h.rw q' hq' hr, hc]
          exact mem_cons_self
        · rw [hself]
          exact mem_cons_self
      have htcid : ∀ t ∈ s.tasks, t.cid ≠ q.collectionId := by
        intro t ht
        obtain ⟨q', hq', hr, hof⟩ := h.tasks t ht
        rw [← hof.cid]
        exact hcid q' hq' hr
      refine ⟨hinv, ?_, ?_, ?_, ?_, ?_, h.nodup, ?_⟩
      · intro q' hq' hr
        rcases hcase q' hq' hr with rfl | hr
        · exact hself
        · have hne : q'.planId ≠ q.planId := fun hx => hnew (hx ▸ hr)
          show st.rw q'.planId = _
          rw [hrw, if_neg hne]
          exact h.rw q' hq' hr
      · intro q₁ h₁ q₂ h₂ hr₁ hr₂ hurl
        rcases hcase q₁ h₁ hr₁ with rfl | hb₁
        · rcases hcase q₂ h₂ hr₂ with rfl | hb₂
          · rfl
          · exact absurd hurl.symm (ha q₁ h₁ rfl q₂ h₂ hb₂)
        · rcases hcase q₂ h₂ hr₂ with rfl | hb₂
          · exact absurd hurl (ha q₂ h₂ rfl q₁ h₁ hb₁)
          · exact h.urls q₁ h₁ q₂ h₂ hb₁ hb₂ hurl
      · intro t ht
        rcases mem_append.mp ht with ht | ht
        · obtain ⟨q', hq', hr, hof⟩ := h.tasks t ht
          exact ⟨q', hq', hold _ hr, hof.congr (update_of_ne (htcid t ht) _ _) rfl⟩
        · obtain ⟨hc, hp, hnode, hdest, -⟩ := of_mem_commands ht
          refine ⟨q, hq, (hmem _).mpr (.inl rfl), hp.symm, hc.symm, ?_, ⟨view, ?_, hnode⟩, hdest⟩
          · show update s.cidPid q.collectionId q.planId t.cid = t.planId
            rw [hc, update_self, hp]
          · rw [hc]
            exact hview
      · show Gather.Inv _ ((s.tasks ++ _).map (·.cid))
        rw [map_append, map_cid_commands]
        refine h.counts.expect (fun hx => ?_) view.length
        obtain ⟨t, ht, hc⟩ := mem_map.mp hx
        exact htcid t ht hc
      · intro x hx
        obtain ⟨q', hq', rfl, hr, hno⟩ := h.finishing x hx
        refine ⟨q', hq', rfl, hold _ hr, fun t ht => ?_⟩
        rcases mem_append.mp ht with ht | ht
        · exact hno t ht
        · rw [(of_mem_commands ht).2.1]
          exact fun hx => hnew (hx ▸ hr)
      · intro q' hq' hr view' hview' p node part hp hpart
        rcases hcase q' hq' hr with rfl | hr
        · obtain rfl : view = view' := Option.some.inj (hview.symm.trans hview')
          exact .inl ⟨_, mem_append_right _ (commands_mem hp), rfl, rfl, rfl⟩
        · rcases h.files q' hq' hr view' hview' p node part hp hpart with ⟨t, ht, hx⟩ | hx
          · exact .inl ⟨t, mem_append_left _ ht, hx⟩
          · exact .inr hx

/-! ## Workers and replies -/

theorem Inv.work (h : Inv plans s) (hids : (plans.map (·.planId)).Nodup) {i : Nat}
    (hu : s.work plans i = .ok u) : Inv plans u := by
  unfold WriteManager.work at hu
  cases ht : s.tasks[i]? with
  | none =>
    rw [ht] at hu
    cases hu
  | some t =>
    rw [ht] at hu
    obtain ⟨_, -, hu⟩ := bind_eq_ok.mp hu
    obtain ⟨v, hv, hu⟩ := bind_eq_ok.mp hu
    cases hu
    unfold writePartition at hv
    split at hv
    · cases hv
    · cases hv
    · next part f hpart hf =>
      cases hv
      have hmem := mem_of_getElem? ht
      obtain ⟨q₀, hq₀, hr₀, hof₀⟩ := h.tasks t hmem
      refine ⟨h.status, h.rw, h.urls, fun t' ht' => ?_, ?_, fun x hx => ?_, h.nodup, ?_⟩
      · rcases mem_or_eq_of_mem_set ht' with ht' | rfl
        · obtain ⟨q, hq, hr, hof⟩ := h.tasks t' ht'
          exact ⟨q, hq, hr, hof.congr rfl rfl⟩
        · exact ⟨q₀, hq₀, hr₀, hof₀.plan, hof₀.cid, hof₀.pid, hof₀.node, hof₀.url⟩
      · show Gather.Inv _ ((s.tasks.set i _).map (·.cid))
        rw [map_set_of_eq (c := { t with replied := true }) ht (·.cid) rfl]
        exact h.counts
      · obtain ⟨q, hq, rfl, hr, hno⟩ := h.finishing x hx
        refine ⟨q, hq, rfl, hr, fun t' ht' => ?_⟩
        rcases mem_or_eq_of_mem_set ht' with ht' | rfl
        · exact hno t' ht'
        · exact hno t hmem
      · intro q hq hr view hview p node x hp hx
        show _ ∨ update s.files t.destUrl _ _ = _
        by_cases hfile : writeUrl q.url p = t.destUrl
        · -- the file that is written now: the plan is the one of the task
          obtain ⟨hurl, hpid⟩ := writeUrl_inj (hfile.trans hof₀.url)
          obtain rfl := h.urls q hq q₀ hq₀ hr hr₀ hurl
          have hpid : p = t.partId := by omega
          subst hpid
          obtain ⟨view', hview', hnode⟩ := hof₀.node
          have hvv : view' = view := by
            rw [← hof₀.cid] at hview'
            exact Option.some.inj (hview'.symm.trans hview)
          subst hvv
          obtain rfl : node = t.nodeId := Option.some.inj (hp.symm.trans hnode)
          have hx : s.partitions (t.nodeId, q.collectionId, t.partId) = some x := hx
          rw [hof₀.cid, hpart] at hx
          obtain rfl := Option.some.inj hx
          refine .inr ?_
          rw [hfile, update_self, hof₀.cid, hf]
          rfl
        · rw [update_of_ne hfile]
          rcases h.files q hq hr view hview p node x hp hx with ⟨t', ht', hplan, hpart', hnot⟩ | hdone
          · refine .inl ⟨t', mem_set_of_ne ht ht' ?_, hplan, hpart', hnot⟩
            rintro rfl
            obtain rfl := inj_on_of_nodup_map hids hq hq₀ (hplan.symm.trans hof₀.plan.symm)
            exact hfile (by rw [hof₀.url, hpart'])
          · exact .inr hdone

theorem Inv.reply (h : Inv plans s) (hids : (plans.map (·.planId)).Nodup) {i : Nat}
    (hu : s.reply i = .ok u) : Inv plans u := by
  unfold WriteManager.reply at hu
  cases ht : s.tasks[i]? with
  | none =>
    rw [ht] at hu
    cases hu
  | some t =>
    rw [ht] at hu
    obtain ⟨_, hrep, hu⟩ := bind_eq_ok.mp hu
    rw [check_eq_ok] at hrep
    cases hu
    have hmem := mem_of_getElem? ht
    have hsub : ∀ t' ∈ s.tasks.eraseIdx i, t' ∈ s.tasks := fun t' ht' => mem_of_mem_eraseIdx ht'
    have hperm := (perm_cons_of_getElem? ht).map (·.cid)
    rw [map_cons] at hperm
    obtain ⟨q₀, hq₀, hr₀, hof₀⟩ := h.tasks t hmem
    -- what does not depend on whether the reply is the last one
    have hbase : Inv plans { s with
        tasks := s.tasks.eraseIdx i
        replies := s.replies.add t.cid } := by
      refine ⟨h.status, h.rw, h.urls, fun t' ht' => ?_, h.counts.add hperm, fun x hx => ?_, h.nodup, ?_⟩
      · obtain ⟨q, hq, hr, hof⟩ := h.tasks t' (hsub t' ht')
        exact ⟨q, hq, hr, hof.congr rfl rfl⟩
      · obtain ⟨q, hq, rfl, hr, hno⟩ := h.finishing x hx
        exact ⟨q, hq, rfl, hr, fun t' ht' => hno t' (hsub t' ht')⟩
      · intro q hq hr view hview p node x hp hx
        rcases h.files q hq hr view hview p node x hp hx with ⟨t', ht', hplan, hpart, hnot⟩ | hdone
        · refine .inl ⟨t', ?_, hplan, hpart, hnot⟩
          have hne : t' ≠ t := by
            rintro rfl
            rw [hrep] at hnot
            cases hnot
          exact (mem_cons.mp ((perm_cons_of_getElem? ht).mem_iff.mp ht')).resolve_left hne
        · exact .inr hdone
    unfold finishWritePartition
    simp only
    split
    · next hfull =>
      -- the last reply: the plan of the collection has no task any more
      have hlast : t.cid ∉ (s.tasks.eraseIdx i).map (·.cid) := (h.counts.full_add hperm).mp hfull
      have hno : ∀ t' ∈ s.tasks.eraseIdx i, t'.planId ≠ t.planId := by
        intro t' ht' hp
        exact hlast (mem_map.mpr ⟨t', ht', (h.cid_iff hids hmem (hsub t' ht')).mpr hp⟩)
      have hfresh : t.planId ∉ s.finishing := by
        intro hx
        obtain ⟨-, -, -, -, hno⟩ := h.finishing _ hx
        exact hno t hmem rfl
      rw [hof₀.pid]
      refine ⟨hbase.status, hbase.rw, hbase.urls, fun t' ht' => ?_, hbase.counts, fun x hx => ?_, ?_,
        hbase.files⟩
      · obtain ⟨q, hq, hr, hof⟩ := hbase.tasks t' ht'
        exact ⟨q, hq, hr, hof.congr rfl rfl⟩
      · rcases mem_append.mp hx with hx | hx
        · exact hbase.finishing x hx
        · obtain rfl := mem_singleton.mp hx
          exact ⟨q₀, hq₀, hof₀.plan, hr₀, hno⟩
      · exact nodup_append'.mpr ⟨h.nodup, nodup_singleton _, by simpa using hfresh⟩
    · exact hbase

/-! ## Every run -/

theorem Inv.update (h : Inv plans s) {cid : Int} {parts : List (List T)}
    (ha : s.Apart plans (.update cid parts)) : Inv plans { s with toStored := s.put cid parts } := by
  obtain ⟨-, -, id, hid, hnot, hwrites⟩ := ha
  -- the collection is not that of a `Write` plan that runs
  have hne : ∀ q ∈ plans, s.Running q → q.collectionId ≠ cid := by
    rintro q hq hr rfl
    have hids : id ≠ q.planId := fun hx => hnot (hx ▸ mem_map_of_mem hq)
    refine h.status.disjoint id hid q.planId hr hids q.collectionId hwrites ?_
    rw [h.rw q hq hr]
    exact mem_cons_self
  have hmap : (s.put cid parts).collectionMap = s.collectionMap := Stored.collectionMap_put
  refine ⟨h.status, h.rw, h.urls, fun t ht => ?_, h.counts, h.finishing, h.nodup, ?_⟩
  · obtain ⟨q, hq, hr, hof⟩ := h.tasks t ht
    exact ⟨q, hq, hr, hof.congr rfl hmap⟩
  · intro q hq hr view hview p node part hp hpart
    change (s.put cid parts).collectionMap q.collectionId = some view at hview
    change (s.put cid parts).partitions (node, q.collectionId, p) = some part at hpart
    rw [hmap] at hview
    rw [Stored.partitions_put_of_ne (hne q hq hr)] at hpart
    exact h.files q hq hr view hview p node part hp hpart

theorem Inv.step (h : Inv plans s) (hids : (plans.map (·.planId)).Nodup) {e : WriteEvent T}
    (ha : s.Apart plans e) (hu : step plans s e = .ok u) : Inv plans u := by
  cases e with
  | write planId => exact h.write hids ha hu
  | work i => exact h.work hids hu
  | reply i => exact h.reply hids hu
  | finish i => exact h.finish hu
  | other planId rw =>
    obtain ⟨st, hst, hu⟩ := bind_eq_ok.mp hu
    cases hu
    exact h.other ha (mapError_eq_ok.mp hst)
  | finishOther planId =>
    obtain ⟨st, hst, hu⟩ := bind_eq_ok.mp hu
    cases hu
    exact h.finishOther ha (mapError_eq_ok.mp hst)
  | update cid parts =>
    cases hu
    exact h.update ha

theorem reachable_inv {init : WriteManager T} (hids : (plans.map (·.planId)).Nodup) (h0 : init.Fresh)
    (hs : Reach (WriteManager.step plans) (Apart plans) init s) : Inv plans s :=
  hs.induct (P := Inv plans) (.of_fresh h0) fun _ _ _ _ hi ha hstep => hi.step hids ha hstep

/-- The elements of a partition of a collection. -/
def PartOf (s : WriteManager T) (cid : Int) (p : Nat) (part : List T) : Prop :=
  ∃ view node, s.collectionMap cid = some view ∧ view[p]? = some node ∧
    s.partitions (node, cid, p) = some part

end WriteManager

open WriteManager in
/-- **Whose function writes.**  In every run in which no two `Write` plans of one url overlap: when the
plan finishes, its files hold what its own function writes for the partitions exactly if the first
`Write` plan of the collection in the program writes the same for them. -/
theorem write_files_iff (plans : List (WritePlan T)) (hids : (plans.map (·.planId)).Nodup)
    (init s t : WriteManager T) (h0 : init.Fresh)
    (hs : Reach (WriteManager.step plans) (WriteManager.Apart plans) init s) (q : WritePlan T)
    (hq : q ∈ plans) (i : Nat) (hi : s.finishing[i]? = some q.planId)
    (ht : WriteManager.step plans s (.finish i) = .ok t) :
    ∃ first ∈ plans, plans.find? (fun q' => q'.collectionId = q.collectionId) = some first ∧
      ((∀ p part, t.PartOf q.collectionId p part →
          t.files (writeUrl q.url p) = some (String.join (part.map q.writeObj))) ↔
        ∀ p part, s.PartOf q.collectionId p part →
          String.join (part.map first.writeObj) = String.join (part.map q.writeObj)) := by
  have h := reachable_inv hids h0 hs
  obtain ⟨q', hq', hp, hr, hno⟩ := h.finishing _ (mem_of_getElem? hi)
  obtain rfl := inj_on_of_nodup_map hids hq' hq hp
  have hsome : (plans.find? fun x => x.collectionId = q'.collectionId).isSome :=
    find?_isSome.mpr ⟨q', hq, decide_eq_true rfl⟩
  obtain ⟨first, hfirst⟩ := Option.isSome_iff_exists.mp hsome
  have hreg : FunctionStore.register plans q'.collectionId = some first.writeObj := by
    rw [FunctionStore.register_eq, hfirst]
    rfl
  -- finishing changes neither the files nor the partitions
  have hsame : t.files = s.files ∧ t.toStored = s.toStored := by
    change s.finish i = .ok t at ht
    unfold WriteManager.finish at ht
    rw [hi] at ht
    obtain ⟨st, -, ht⟩ := bind_eq_ok.mp ht
    cases ht
    exact ⟨rfl, rfl⟩
  have hpart : ∀ p part, t.PartOf q'.collectionId p part ↔ s.PartOf q'.collectionId p part := by
    intro p part
    unfold PartOf
    rw [hsame.2]
  have hfile : ∀ p part, s.PartOf q'.collectionId p part →
      s.files (writeUrl q'.url p) = some (String.join (part.map first.writeObj)) := by
    rintro p part ⟨view, node, hview, hnode, hpart⟩
    rcases h.files q' hq hr view hview p node part hnode hpart with ⟨x, hx, hplan, -⟩ | hf
    · exact absurd hplan (hno x hx)
    · rw [hf, hreg, Option.map_some, writePart_eq]
  refine ⟨first, mem_of_find?_eq_some hfirst, hfirst, ?_⟩
  rw [hsame.1]
  constructor
  · intro hall p part hx
    have := hall p part ((hpart p part).mpr hx)
    rw [hfile p part hx] at this
    exact Option.some.inj this
  · intro hall p part hx
    have hx := (hpart p part).mp hx
    rw [hfile p part hx, hall p part hx]

/-- A collection with one partition, on node 1, that holds 3 and 4. -/
def threeFour : WriteManager Nat where
  collectionMap cid := if cid = 7 then some [1] else none
  partitions k := if k = (1, 7, 0) then some [3, 4] else none
  cidPid _ := 0
  replies := ⟨fun _ => 0, fun _ => 0⟩
  status := .empty
  files _ := none
  tasks := []
  finishing := []

/-- One plan writes the numbers, the other one stars. -/
def twoWrites : List (WritePlan Nat) :=
  [⟨1, 7, "a", fun n => toString n⟩, ⟨2, 7, "b", fun n => String.join (List.replicate n "*")⟩]

theorem write_files_first : ∃ s t : WriteManager Nat,
    WriteManager.step twoWrites s (.finish 0) = .ok t ∧
    ∀ p part, t.PartOf 7 p part → t.files (writeUrl "a" p) = some (String.join (part.map toString)) := by
  have hrun : Ends (WriteManager.step twoWrites) threeFour [.write 1, .work 0, .reply 0]
      fun s => s.finishing = [1] ∧ Ends (WriteManager.step twoWrites) s [.finish 0] fun _ => True := by
    decide +kernel
  have hok : RunOk (WriteManager.step twoWrites) (WriteManager.Apart twoWrites) threeFour
      [.write 1, .work 0, .reply 0] := by
    decide +kernel
  obtain ⟨s, hs, hfin, u, hu, -⟩ := hrun
  obtain ⟨t, ht, -⟩ := run_cons_ok.mp hu
  obtain ⟨first, -, hfirst, hiff⟩ := write_files_iff twoWrites (by decide) threeFour s t ⟨rfl, rfl, rfl⟩
    (reach_of_run_ok _ hok hs) ⟨1, 7, "a", fun n => toString n⟩ mem_cons_self 0 (by rw [hfin]; rfl) ht
  obtain rfl : twoWrites.head (by decide) = first := Option.some.inj hfirst
  exact ⟨s, t, ht, hiff.mpr fun _ _ _ => rfl⟩

/-- The second plan writes the numbers, as the first one does. -/
theorem second_write_uses_first :
    Ends (WriteManager.step twoWrites) threeFour
      [.write 1, .work 0, .reply 0, .finish 0, .write 2, .work 0, .reply 0, .finish 0]
      fun s => s.files (writeUrl "b" 0) = some "34" ∧
        String.join ([3, 4].map fun n => String.join (List.replicate n "*")) = "*******" := by
  decide +kernel

end Tangram
