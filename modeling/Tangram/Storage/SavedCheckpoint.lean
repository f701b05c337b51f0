import Tangram.Scheduler.CheckpointManager

/-!
# Loading what was saved

Programs of `checkpoint`, `loadcheckpoint` and updating plans, one plan after the
other.  `LoadCheckpoint` does not read the url of its plan: it loads the last
checkpoint of the collection, to whatever url that one went.

    load(c, u) restores what checkpoint(c, u) saved
      ↔ the files of the last checkpoint of c hold what checkpoint(c, u) saved    (load_restores_iff)
-/

namespace Tangram

open StepRun FileTask List Function

variable {P : Type}

namespace CheckpointManager

variable {B : PartBin P} {init s t u : CheckpointManager P} {cid planId : Int} {url : String}
  {e : CheckpointPlanEvent P} {i : Nat}

/-- A plan starts when the one before it has finished. -/
def InTurn (s : CheckpointManager P) : CheckpointPlanEvent P → Prop
  | .work _ => True
  | .reply _ => True
  | e => s.Apart e ∧ s.tasks = []

instance (s : CheckpointManager P) : (e : CheckpointPlanEvent P) → Decidable (s.InTurn e)
  | .work _ => inferInstanceAs (Decidable True)
  | .reply _ => inferInstanceAs (Decidable True)
  | .checkpoint planId spec => inferInstanceAs
      (Decidable (s.Apart (.checkpoint planId spec) ∧ s.tasks = []))
  | .loadCheckpoint planId spec => inferInstanceAs
      (Decidable (s.Apart (.loadCheckpoint planId spec) ∧ s.tasks = []))
  | .update c parts => inferInstanceAs (Decidable (s.Apart (.update c parts) ∧ s.tasks = []))
  | .interval c w parts => inferInstanceAs (Decidable (s.Apart (.interval c w parts) ∧ s.tasks = []))

theorem InTurn.apart (h : s.InTurn e) : s.Apart e := by
  cases e with
  | work i => trivial
  | reply i => trivial
  | checkpoint planId spec => exact h.1
  | loadCheckpoint planId spec => exact h.1
  | update c parts => exact h.1
  | interval c w parts => exact h.1

/-- What workers and replies do. -/
def OnlyTasks (_ : CheckpointManager P) : CheckpointPlanEvent P → Prop
  | .work _ => True
  | .reply _ => True
  | _ => False

instance (s : CheckpointManager P) : (e : CheckpointPlanEvent P) → Decidable (s.OnlyTasks e)
  | .work _ | .reply _ => inferInstanceAs (Decidable True)
  | .checkpoint .. | .loadCheckpoint .. | .update .. | .interval .. => inferInstanceAs (Decidable False)

theorem OnlyTasks.apart (h : s.OnlyTasks e) : s.Apart e := by
  cases e with
  | work i => trivial
  | reply i => trivial
  | checkpoint planId spec => exact h.elim
  | loadCheckpoint planId spec => exact h.elim
  | update c parts => exact h.elim
  | interval c w parts => exact h.elim

/-- What the most recent checkpoint plan of a collection with this url saved. -/
def savedAt (s : CheckpointManager P) (cid : Int) (url : String) : Option (List (Option P)) :=
  (s.started.reverse.find? fun e => e.plan = .checkpoint ⟨cid, url⟩).map (·.parts)

/-! ## The last checkpoint has its files -/

/-- The file of a partition is written, or the worker still has to write it. -/
def FileOf (B : PartBin P) (s : CheckpointManager P) (file : String) : Prop :=
  (∃ x ∈ s.tasks, x.load = false ∧ x.replied = false ∧ x.destUrl = file) ∨
    ∃ part, s.files file = some (B.toBin part)

structure Backed (B : PartBin P) (s : CheckpointManager P) : Prop where
  files : ∀ cid url, s.status.lastCp.get? cid = some url → ∀ p < s.numParts cid,
    FileOf B s (getCheckpointUrl url cid p)
  last : ∀ e ∈ s.started, ∀ spec, e.plan = .checkpoint spec →
    (s.status.lastCp.get? spec.cid).isSome

theorem getLastCP_eq : s.status.getLastCP cid = .ok url ↔ s.status.lastCp.get? cid = some url := by
  unfold CollectionStatus.getLastCP
  cases s.status.lastCp.get? cid with
  | none => simp
  | some w => simp

theorem get?_addCP (st : CollectionStatus) (cid c : Int) (url : String) :
    (st.addCP cid url).lastCp.get? c = if c = cid then some url else st.lastCp.get? c :=
  OrdMap.get?_set _ _ _ _

theorem saveAll_self (files : String → Option (List UInt8)) (cid : Int) (url : String) {parts : List P}
    {p : Nat} (hp : p < parts.length) :
    saveAll B files cid url parts (getCheckpointUrl url cid p) = some (B.toBin parts[p]) := by
  unfold saveAll
  have hfind : (List.range parts.length).find? (fun (i : Nat) =>
      getCheckpointUrl url cid i = getCheckpointUrl url cid p) = some p := by
    rw [find?_range_eq_some]
    refine ⟨by simp, mem_range.mpr hp, fun j hj => ?_⟩
    have hne : getCheckpointUrl url cid j ≠ getCheckpointUrl url cid p := by
      intro hx
      have := (getCheckpointUrl_inj hx).2.2
      omega
    simpa using hne
  rw [hfind]
  simp [getElem?_eq_getElem hp]

/-- A file is as before, or one of those that are saved. -/
theorem saveAll_cases (files : String → Option (List UInt8)) (cid : Int) (url : String) (parts : List P)
    (file : String) : saveAll B files cid url parts file = files file ∨
      ∃ part, saveAll B files cid url parts file = some (B.toBin part) := by
  unfold saveAll
  split
  · exact .inl rfl
  · next i hi =>
    have hlt := mem_range.mp (mem_of_find?_eq_some hi)
    exact .inr ⟨parts[i], by simp [getElem?_eq_getElem hlt]⟩

/-- Files are only ever written with the bin of a partition. -/
theorem FileOf.mono {file : String} (h : FileOf B s file)
    (htasks : ∀ x ∈ s.tasks, x.load = false → x.replied = false → x.destUrl = file →
      FileOf B u file)
    (hfiles : u.files file = s.files file ∨ ∃ part, u.files file = some (B.toBin part)) :
    FileOf B u file := by
  rcases h with ⟨x, hx, hload, hrep, hurl⟩ | ⟨part, hpart⟩
  · exact htasks x hx hload hrep hurl
  · rcases hfiles with hf | ⟨part', hf⟩
    · exact .inr ⟨part, hf.trans hpart⟩
    · exact .inr ⟨part', hf⟩

theorem Backed.of_fresh (h : init.Fresh) (hcp : ∀ c, init.status.lastCp.get? c = none) :
    Backed B init := by
  refine ⟨fun c w hw => ?_, fun e he => ?_⟩
  · rw [hcp c] at hw
    cases hw
  · rw [h.started] at he
    exact absurd he not_mem_nil

/-- Files and tasks for the same checkpoints as before. -/
theorem Backed.mono (h : Backed B s) (hmap : u.collectionMap = s.collectionMap)
    (hstatus : u.status = s.status) (hstarted : u.started = s.started)
    (hfile : ∀ file, FileOf B s file → FileOf B u file) : Backed B u := by
  constructor
  · intro c w hw p hp
    rw [hstatus] at hw
    have hnum : u.numParts = s.numParts := by
      unfold numParts
      rw [hmap]
    exact hfile _ (h.files c w hw p (hnum ▸ hp))
  · rw [hstarted, hstatus]
    exact h.last

theorem Backed.checkpoint (h : Backed B s) {spec : CheckpointSpec String}
    (hu : s.checkpoint planId spec = .ok u) : Backed B u := by
  unfold CheckpointManager.checkpoint at hu
  cases hview : s.collectionMap spec.cid with
  | none =>
    rw [hview] at hu
    cases hu
  | some view =>
    rw [hview] at hu
    cases hu
    constructor
    · intro c w hw p hp
      change p < s.numParts c at hp
      change (s.status.addCP spec.cid spec.url).lastCp.get? c = some w at hw
      rw [get?_addCP] at hw
      split at hw
      · next hc =>
        -- the commands of the new plan
        subst hc
        obtain rfl := Option.some.inj hw
        rw [numParts, hview] at hp
        have hcmd := @commands_mem view planId spec.cid
          (fun i => getCheckpointUrl spec.url spec.cid i) p _ (getElem?_eq_getElem hp)
        exact .inl ⟨_, mem_append_right _ (mem_map.mpr ⟨_, hcmd, rfl⟩), rfl, rfl, rfl⟩
      · refine (h.files c w hw p hp).mono (fun x hx hload hrep hurl => ?_) (.inl rfl)
        exact .inl ⟨x, mem_append_left _ hx, hload, hrep, hurl⟩
    · intro e he spec' hspec
      show ((s.status.addCP spec.cid spec.url).lastCp.get? spec'.cid).isSome
      rw [get?_addCP]
      split
      · rfl
      · next hne =>
        rcases mem_append.mp he with he | he
        · exact h.last e he spec' hspec
        · obtain rfl := mem_singleton.mp he
          cases hspec
          exact absurd rfl hne

theorem Backed.loadCheckpoint (h : Backed B s) {spec : LoadCheckpointSpec String}
    (hu : s.loadCheckpoint planId spec = .ok u) : Backed B u := by
  unfold CheckpointManager.loadCheckpoint at hu
  split at hu
  · cases hu
  · cases hu
  · cases hu
    constructor
    · intro c w hw p hp
      refine (h.files c w hw p hp).mono (fun x hx hload hrep hurl => ?_) (.inl rfl)
      exact .inl ⟨x, mem_append_left _ hx, hload, hrep, hurl⟩
    · intro e he spec' hspec
      rcases mem_append.mp he with he | he
      · exact h.last e he spec' hspec
      · obtain rfl := mem_singleton.mp he
        cases hspec

/-- What a worker does, as far as the files and the partitions are concerned. -/
theorem work_cases (hu : s.work B i = .ok u) :
    ∃ x v, s.tasks[i]? = some x ∧ x.replied = false ∧ s.handle B x = .ok v ∧
      u = { v with tasks := s.tasks.set i { x with replied := true } } := by
  unfold work at hu
  cases hx : s.tasks[i]? with
  | none =>
    rw [hx] at hu
    cases hu
  | some x =>
    rw [hx] at hu
    obtain ⟨_, hrep, hu⟩ := bind_eq_ok.mp hu
    obtain ⟨v, hv, hu⟩ := bind_eq_ok.mp hu
    cases hu
    have htasks : v.tasks = s.tasks := by
      unfold handle loadCheckPoint checkPoint at hv
      split at hv
      · split at hv
        · cases hv
        · obtain ⟨_, -, hv⟩ := bind_eq_ok.mp hv
          split at hv
          · cases hv
          · cases hv
            rfl
      · split at hv
        · cases hv
        · cases hv
          rfl
    exact ⟨x, v, rfl, check_eq_ok.mp hrep, hv, by rw [htasks]⟩

theorem Backed.work (h : Backed B s) (hu : s.work B i = .ok u) : Backed B u := by
  obtain ⟨x, v, hx, -, hv, rfl⟩ := work_cases hu
  unfold handle at hv
  split at hv
  · next hload =>
    -- a load changes no file, and its task is none of those that write
    unfold loadCheckPoint at hv
    split at hv
    · cases hv
    · obtain ⟨_, -, hv⟩ := bind_eq_ok.mp hv
      split at hv
      · cases hv
      · cases hv
        refine h.mono rfl rfl rfl fun file hf => hf.mono (fun y hy hl hr hurl => ?_) (.inl rfl)
        refine .inl ⟨y, mem_set_of_ne hx hy ?_, hl, hr, hurl⟩
        rintro rfl
        rw [hload] at hl
        cases hl
  · unfold checkPoint at hv
    split at hv
    · cases hv
    · next part hpart =>
      cases hv
      have hfiles : ∀ file, update s.files x.destUrl (some (B.toBin part)) file = s.files file ∨
          ∃ part', update s.files x.destUrl (some (B.toBin part)) file =
            some (B.toBin part') := by
        intro file
        by_cases hf : file = x.destUrl
        · exact .inr ⟨part, by rw [hf, update_self]⟩
        · exact .inl (update_of_ne hf _ _)
      refine h.mono rfl rfl rfl fun file hf => hf.mono (fun y hy hl hr hurl => ?_) (hfiles file)
      by_cases hyx : y = x
      · subst hyx
        refine .inr ⟨part, ?_⟩
        show update s.files y.destUrl _ file = _
        rw [hurl, update_self]
      · exact .inl ⟨y, mem_set_of_ne hx hy hyx, hl, hr, hurl⟩

/-- A task that is not replied to is still there after a reply. -/
theorem mem_eraseIdx_of_not_replied {x y : CheckpointTask} (hx : s.tasks[i]? = some x)
    (hrep : x.replied = true) (hy : y ∈ s.tasks) (hnot : y.replied = false) :
    y ∈ s.tasks.eraseIdx i := by
  have hne : y ≠ x := by
    rintro rfl
    rw [hrep] at hnot
    cases hnot
  exact (mem_cons.mp ((perm_cons_of_getElem? hx).mem_iff.mp hy)).resolve_left hne

theorem Backed.reply (h : Backed B s) (hinv : Inv B s) (hu : s.reply i = .ok u) : Backed B u := by
  obtain ⟨x, hx, hrep, hr⟩ := hinv.replied hu
  refine h.mono (congrArg Stored.collectionMap hr.stored) hr.status hr.started fun file hf => ?_
  refine hf.mono (fun y hy hl hnot hurl => ?_) (.inl (by rw [hr.files]))
  refine .inl ⟨y, ?_, hl, hnot, hurl⟩
  rw [hr.tasks]
  exact mem_eraseIdx_of_not_replied hx hrep hy hnot

theorem Backed.interval (h : Backed B s) {c : Int} {w : String} {parts : List P}
    (hfree : s.Free c parts.length) :
    Backed B { s with files := saveAll B s.files c w parts, status := s.status.addCP c w } := by
  obtain ⟨-, view, hview, hlen, -⟩ := hfree
  constructor
  · intro c' w' hw p hp
    change (s.status.addCP c w).lastCp.get? c' = some w' at hw
    rw [get?_addCP] at hw
    split at hw
    · next hc =>
      subst hc
      obtain rfl := Option.some.inj hw
      have hp : p < parts.length := by
        change p < ((s.collectionMap c').getD []).length at hp
        rw [show s.collectionMap c' = some view from hview] at hp
        rw [← hlen]
        exact hp
      exact .inr ⟨parts[p], saveAll_self s.files c' w hp⟩
    · refine (h.files c' w' hw p hp).mono (fun x hx hl hnot hurl => .inl ⟨x, hx, hl, hnot, hurl⟩) ?_
      exact saveAll_cases s.files c w parts _
  · intro e he spec hspec
    show ((s.status.addCP c w).lastCp.get? spec.cid).isSome
    rw [get?_addCP]
    split
    · rfl
    · exact h.last e he spec hspec

theorem Backed.step (h : Backed B s) (hinv : Inv B s) (ha : s.Apart e) (hu : step B s e = .ok u) :
    Backed B u := by
  cases e with
  | checkpoint planId spec => exact h.checkpoint hu
  | loadCheckpoint planId spec => exact h.loadCheckpoint hu
  | work i => exact h.work hu
  | reply i => exact h.reply hinv hu
  | update c parts =>
    cases hu
    exact h.mono Stored.collectionMap_put rfl rfl fun file hf =>
      hf.mono (fun x hx hl hnot hurl => .inl ⟨x, hx, hl, hnot, hurl⟩) (.inl rfl)
  | interval c w parts =>
    cases hu
    exact h.interval ha

theorem reachable_backed (h0 : init.Fresh) (hcp : ∀ c, init.status.lastCp.get? c = none)
    (hs : Reach (CheckpointManager.step B) Apart init s) : Inv B s ∧ Backed B s :=
  hs.induct (P := fun s => Inv B s ∧ Backed B s) ⟨.of_fresh h0, .of_fresh h0 hcp⟩
    fun _ _ _ _ hi ha hstep => ⟨hi.1.step ha hstep, hi.2.step hi.1 ha hstep⟩

/-! ## One load -/

/-- Between the start of a load of `val` and its end: a partition has what is in its file, or the
worker still has to read it. -/
structure Loading (B : PartBin P) (s t : CheckpointManager P) (planId cid : Int) (url : String)
    (view : List Int) (val : Nat → P) : Prop where
  files : t.files = s.files
  map : t.collectionMap = s.collectionMap
  tasks : ∀ x ∈ t.tasks, x.load = true ∧ x.cid = cid ∧ x.planId = planId ∧
    view[x.partId]? = some x.nodeId ∧ x.destUrl = getCheckpointUrl url cid x.partId
  parts : ∀ p node, view[p]? = some node →
    (∃ x ∈ t.tasks, x.partId = p ∧ x.replied = false) ∨ t.partitions (node, cid, p) = some (val p)
  finished : planId ∈ t.finished ↔ t.tasks = []

section Load

variable {planId : Int} {view : List Int} {val : Nat → P}

/-- What a worker reads. -/
theorem Loading.read (h : Loading B s t planId cid url view val)
    (hval : ∀ p < view.length, s.files (getCheckpointUrl url cid p) = some (B.toBin (val p)))
    {x : CheckpointTask} (hx : x ∈ t.tasks) :
    t.files x.destUrl = some (B.toBin (val x.partId)) := by
  obtain ⟨-, -, -, hnode, hurl⟩ := h.tasks x hx
  obtain ⟨hlt, -⟩ := List.getElem?_eq_some_iff.mp hnode
  rw [h.files, hurl, hval x.partId hlt]

theorem Loading.work (h : Loading B s t planId cid url view val)
    (hval : ∀ p < view.length, s.files (getCheckpointUrl url cid p) = some (B.toBin (val p)))
    (hu : t.work B i = .ok u) : Loading B s u planId cid url view val := by
  obtain ⟨x, v, hx, hrep, hv, rfl⟩ := work_cases hu
  have hmem := mem_of_getElem? hx
  obtain ⟨hload, hcid, hplan, hnode, hurl⟩ := h.tasks x hmem
  unfold handle loadCheckPoint at hv
  rw [if_pos hload, h.read hval hmem] at hv
  obtain ⟨_, -, hv⟩ := bind_eq_ok.mp hv
  rw [B.fromBin_toBin] at hv
  cases hv
  have hne : t.tasks ≠ [] := ne_nil_of_mem hmem
  constructor
  · exact h.files
  · exact h.map
  · intro y hy
    rcases mem_or_eq_of_mem_set hy with hy | rfl
    · exact h.tasks y hy
    · exact ⟨hload, hcid, hplan, hnode, hurl⟩
  · intro p node hp
    show _ ∨ update t.partitions (x.nodeId, x.cid, x.partId) (some (val x.partId))
      (node, cid, p) = some (val p)
    by_cases hpx : p = x.partId
    · subst hpx
      have hk : (node, cid, x.partId) = (x.nodeId, x.cid, x.partId) := by
        rw [hcid, Option.some.inj (hp.symm.trans hnode)]
      exact .inr (by rw [hk, update_self])
    · have hk : (node, cid, p) ≠ (x.nodeId, x.cid, x.partId) :=
        fun hk => hpx (Prod.mk.inj (Prod.mk.inj hk).2).2
      rw [update_of_ne hk]
      rcases h.parts p node hp with ⟨y, hy, hyp, hnot⟩ | hpart
      · refine .inl ⟨y, mem_set_of_ne hx hy ?_, hyp, hnot⟩
        rintro rfl
        exact hpx hyp.symm
      · exact .inr hpart
  · refine h.finished.trans ⟨fun hnil => absurd hnil hne, fun hnil => ?_⟩
    have hlen := congrArg List.length hnil
    rw [length_set] at hlen
    exact length_eq_zero_iff.mp hlen

theorem Loading.reply (h : Loading B s t planId cid url view val) (hinv : Inv B t)
    (hu : t.reply i = .ok u) : Loading B s u planId cid url view val := by
  obtain ⟨x, hx, hrep, hr⟩ := hinv.replied hu
  have hsub : ∀ y ∈ t.tasks.eraseIdx i, y ∈ t.tasks := fun y hy => mem_of_mem_eraseIdx hy
  have hplan : x.planId = planId := (h.tasks x (mem_of_getElem? hx)).2.2.1
  constructor
  · rw [hr.files, h.files]
  · rw [← h.map]
    exact congrArg Stored.collectionMap hr.stored
  · intro y hy
    rw [hr.tasks] at hy
    exact h.tasks y (hsub y hy)
  · intro p node hp
    rw [hr.tasks, hr.stored]
    rcases h.parts p node hp with ⟨y, hy, hyp, hnot⟩ | hpart
    · exact .inl ⟨y, mem_eraseIdx_of_not_replied hx hrep hy hnot, hyp, hnot⟩
    · exact .inr hpart
  · have hnot : planId ∉ t.finished := fun hx' =>
      ne_nil_of_mem (mem_of_getElem? hx) (h.finished.mp hx')
    rw [hr.tasks, hr.finished, mem_append, or_iff_right hnot, hplan]
    constructor
    · intro hx'
      split at hx'
      · exact absurd hx' not_mem_nil
      · next hno =>
        refine eq_nil_iff_forall_not_mem.mpr fun y hy => hno ?_
        exact mem_map.mpr ⟨y, hy, (h.tasks y (hsub y hy)).2.2.1⟩
    · intro hnil
      rw [hnil]
      exact mem_cons_self

theorem Loading.reach (h : Loading B s u planId cid url view val) (hinv : Inv B u)
    (hval : ∀ p < view.length, s.files (getCheckpointUrl url cid p) = some (B.toBin (val p)))
    (ht : Reach (CheckpointManager.step B) OnlyTasks u t) :
    Loading B s t planId cid url view val ∧ Inv B t := by
  refine ht.induct (P := fun t => Loading B s t planId cid url view val ∧ Inv B t) ⟨h, hinv⟩ ?_
  intro t a t' _ hi ha hstep
  refine ⟨?_, hi.2.step (OnlyTasks.apart ha) hstep⟩
  cases a with
  | work i => exact hi.1.work hval hstep
  | reply i => exact hi.1.reply hi.2 hstep
  | checkpoint planId spec => exact ha.elim
  | loadCheckpoint planId spec => exact ha.elim
  | update c parts => exact ha.elim
  | interval c w parts => exact ha.elim

/-- As long as a task is there, one can be done or replied to, if no file is empty. -/
theorem Loading.goes_on (h : Loading B s t planId cid url view val) (hinv : Inv B t)
    (hval : ∀ p < view.length, s.files (getCheckpointUrl url cid p) = some (B.toBin (val p)))
    (hbin : ∀ part, B.toBin part ≠ []) (hne : t.tasks ≠ []) :
    ∃ a v, t.OnlyTasks a ∧ CheckpointManager.step B t a = .ok v := by
  obtain ⟨x, hx⟩ := exists_mem_of_ne_nil _ hne
  obtain ⟨i, hi, rfl⟩ := mem_iff_getElem.mp hx
  have hget := getElem?_eq_getElem hi
  cases hrep : t.tasks[i].replied with
  | true =>
    obtain ⟨v, hv, -⟩ := hinv.reply_ok hget hrep
    exact ⟨.reply i, v, trivial, hv⟩
  | false =>
    have hsize : (B.toBin (val t.tasks[i].partId)).length ≠ 0 :=
      fun hx => hbin _ (length_eq_zero_iff.mp hx)
    have hload : t.handle B t.tasks[i] = .ok { t with
        partitions := update t.partitions
          (t.tasks[i].nodeId, t.tasks[i].cid, t.tasks[i].partId)
          (some (val t.tasks[i].partId)) } := by
      unfold handle loadCheckPoint
      rw [if_pos (h.tasks _ hx).1, h.read hval hx]
      simp only
      rw [check_pos hsize]
      simp only [B.fromBin_toBin]
      rfl
    exact ⟨.work i, _, trivial, work_eq hget hrep hload⟩

end Load

/-- The files of a checkpoint hold these partitions. -/
def Holds (B : PartBin P) (s : CheckpointManager P) (cid : Int) (url : String)
    (parts : List (Option P)) : Prop :=
  ∀ (p : Nat) part, parts[p]? = some part →
    s.files (getCheckpointUrl url cid p) = part.map B.toBin

theorem Loading.contents_iff {view : List Int} {val : Nat → P} {parts : List (Option P)}
    (h : Loading B s t planId cid url view val) (hview : s.collectionMap cid = some view)
    (hval : ∀ p < view.length, s.files (getCheckpointUrl url cid p) = some (B.toBin (val p)))
    (hnil : t.tasks = []) (hlen : parts.length = view.length) (hsome : ∀ x ∈ parts, x.isSome) :
    t.contents cid = parts ↔ s.Holds B cid url parts := by
  have hview' : t.collectionMap cid = some view := by rw [h.map, hview]
  -- every partition has been read
  have hcontents : ∀ p < view.length, (t.contents cid)[p]? = some (some (val p)) := by
    intro p hp
    have hnode := List.getElem?_eq_getElem hp
    rw [Stored.getElem?_contents hview' hnode]
    rcases h.parts p _ hnode with ⟨y, hy, -⟩ | hpart
    · rw [hnil] at hy
      exact absurd hy not_mem_nil
    · rw [hpart]
  constructor
  · intro heq p part hpart
    obtain ⟨hlt, -⟩ := List.getElem?_eq_some_iff.mp hpart
    rw [hlen] at hlt
    have hget := hcontents p hlt
    rw [heq, hpart] at hget
    rw [hval p hlt, Option.some.inj hget]
    rfl
  · intro hold
    refine ext_getElem (by rw [Stored.length_contents hview', hlen]) fun p h₁ h₂ => ?_
    have hlt : p < view.length := hlen ▸ h₂
    obtain ⟨part, hpart⟩ := Option.isSome_iff_exists.mp (hsome _ (getElem_mem h₂))
    have hfile := hold p (some part) (by rw [List.getElem?_eq_getElem h₂, hpart])
    rw [hval p hlt] at hfile
    have hdec := congrArg B.fromBin (Option.some.inj hfile)
    rw [B.fromBin_toBin, B.fromBin_toBin] at hdec
    have hget := hcontents p hlt
    rw [List.getElem?_eq_getElem h₁] at hget
    rw [hpart, Option.some.inj hget, Option.some.inj hdec]

end CheckpointManager

open CheckpointManager in
/-- **What a load restores.**  Where the url of the plan is one that the collection was saved at, the load
starts and goes on; when it has finished, the partitions have what they had at that time exactly if
the files of the last checkpoint of the collection, to whatever url, hold this. -/
theorem load_restores_iff (B : PartBin P) (init s : CheckpointManager P) (h0 : init.Fresh)
    (hcp : ∀ c, init.status.lastCp.get? c = none)
    (hs : Reach (CheckpointManager.step B) InTurn init s) (planId : Int)
    (spec : LoadCheckpointSpec String) (ha : s.InTurn (.loadCheckpoint planId spec))
    (parts : List (Option P)) (hsaved : s.savedAt spec.cid spec.url = some parts) :
    ∃ url u, s.status.getLastCP spec.cid = .ok url ∧
      CheckpointManager.step B s (.loadCheckpoint planId spec) = .ok u ∧
      ∀ t, Reach (CheckpointManager.step B) OnlyTasks u t →
        ((∀ part, B.toBin part ≠ []) → planId ∉ t.finished →
          ∃ a v, t.OnlyTasks a ∧ CheckpointManager.step B t a = .ok v) ∧
        (planId ∈ t.finished → (t.contents spec.cid = parts ↔ s.Holds B spec.cid url parts)) := by
  obtain ⟨hinv, hback⟩ := reachable_backed h0 hcp (hs.mono fun _ _ => InTurn.apart)
  obtain ⟨hap, hnil⟩ := ha
  obtain ⟨hnew, hfree, view, hview, hlen, hpos⟩ := hap
  -- the plan that saved it
  obtain ⟨e, he, rfl⟩ := Option.map_eq_some_iff.mp hsaved
  have hplan : e.plan = .checkpoint ⟨spec.cid, spec.url⟩ := by simpa using find?_some he
  have he : e ∈ s.started := mem_reverse.mp (mem_of_find?_eq_some he)
  obtain ⟨url, hurl⟩ := Option.isSome_iff_exists.mp (hback.last e he _ hplan)
  have hview : s.collectionMap spec.cid = some view := hview
  have hnum : s.numParts spec.cid = view.length := by
    unfold numParts
    rw [hview]
    rfl
  have hfiles : ∀ p < view.length, ∃ part,
      s.files (getCheckpointUrl url spec.cid p) = some (B.toBin part) := by
    intro p hp
    rcases hback.files spec.cid url hurl p (hnum ▸ hp) with ⟨x, hx, -⟩ | hf
    · rw [hnil] at hx
      exact absurd hx not_mem_nil
    · exact hf
  have hval : ∃ val : Nat → P, ∀ p < view.length,
      s.files (getCheckpointUrl url spec.cid p) = some (B.toBin (val p)) := by
    obtain ⟨part₀, -⟩ := hfiles 0 (by omega)
    refine ⟨fun p => if hp : p < view.length then (hfiles p hp).choose else part₀, fun p hp => ?_⟩
    simp only [dif_pos hp]
    exact (hfiles p hp).choose_spec
  obtain ⟨val, hval⟩ := hval
  have hstep : ∃ u, s.loadCheckpoint planId spec = .ok u := by
    unfold loadCheckpoint
    rw [getLastCP_eq.mpr hurl, hview]
    exact ⟨_, rfl⟩
  obtain ⟨u, hu⟩ := hstep
  refine ⟨url, u, getLastCP_eq.mpr hurl, hu, fun t ht => ?_⟩
  obtain ⟨url', hurl', hl⟩ := launched_load hview hu
  obtain rfl : url' = url := Except.ok.inj (hurl'.symm.trans (getLastCP_eq.mpr hurl))
  have hinvu : Inv B u := hinv.loadCheckpoint ⟨hnew, hfree, view, hview, hlen, hpos⟩ hu
  have hload : Loading B s u planId spec.cid url' view val := by
    have hmem : ∀ x ∈ u.tasks, ∃ f ∈ commands view planId spec.cid
        (fun i => getCheckpointUrl url' spec.cid i), x = ⟨f, true⟩ := by
      intro x hx
      rw [hl.tasks, hnil, nil_append] at hx
      obtain ⟨f, hf, rfl⟩ := mem_map.mp hx
      exact ⟨f, hf, rfl⟩
    have hfirst : ∀ p node, view[p]? = some node →
        ⟨⟨spec.cid, p, node, getCheckpointUrl url' spec.cid p, planId, false⟩, true⟩ ∈ u.tasks := by
      intro p node hp
      have hcmd := @commands_mem view planId spec.cid (fun i => getCheckpointUrl url' spec.cid i) p _ hp
      rw [hl.tasks]
      exact mem_append_right _ (mem_map.mpr ⟨_, hcmd, rfl⟩)
    refine ⟨?_, congrArg Stored.collectionMap hl.stored, fun x hx => ?_, fun p node hp => ?_, ?_⟩
    · unfold loadCheckpoint at hu
      rw [getLastCP_eq.mpr hurl, hview] at hu
      cases hu
      rfl
    · obtain ⟨f, hf, rfl⟩ := hmem x hx
      obtain ⟨hc, hp, hnode, hdest, -⟩ := of_mem_commands hf
      exact ⟨rfl, hc, hp, hnode, hdest⟩
    · exact .inl ⟨_, hfirst p node hp, rfl, rfl⟩
    · rw [hl.finished]
      constructor
      · intro hx
        exact absurd (hinv.known _ hx) hnew
      · intro hx
        have h0 := hfirst 0 view[0] (getElem?_eq_getElem (by omega))
        rw [hx] at h0
        exact absurd h0 not_mem_nil
  obtain ⟨hloadt, hinvt⟩ := hload.reach hinvu hval ht
  refine ⟨fun hbin hnot => ?_, fun hfin => ?_⟩
  · exact hloadt.goes_on hinvt hval hbin fun hx => hnot (hloadt.finished.mpr hx)
  · have hwhole := hinv.whole e he
    rw [hplan] at hwhole
    exact hloadt.contents_iff hview hval (hloadt.finished.mp hfin) (hwhole.1.trans hnum) hwhole.2

theorem load_restores_last : ∃ s u t : CheckpointManager Nat,
    CheckpointManager.step unaryBin s (.loadCheckpoint 1 ⟨7, "a"⟩) = .ok u ∧
    Reach (CheckpointManager.step unaryBin) CheckpointManager.OnlyTasks u t ∧
    t.contents 7 = [some 5] := by
  have hrun : Ends (CheckpointManager.step unaryBin) onePartition
      [.checkpoint 0 ⟨7, "a"⟩, .work 0, .reply 0, .update 7 [9]]
      fun s => s.savedAt 7 "a" = some [some 5] ∧ s.InTurn (.loadCheckpoint 1 ⟨7, "a"⟩) ∧
        s.status.lastCp.get? 7 = some "a" ∧
        s.files (getCheckpointUrl "a" 7 0) = some (unaryBin.toBin 5) ∧
        Ends (CheckpointManager.step unaryBin) s [.loadCheckpoint 1 ⟨7, "a"⟩, .work 0, .reply 0]
          fun t => 1 ∈ t.finished := by
    decide +kernel
  have hok : RunOk (CheckpointManager.step unaryBin) CheckpointManager.InTurn onePartition
      [.checkpoint 0 ⟨7, "a"⟩, .work 0, .reply 0, .update 7 [9]] := by
    decide +kernel
  obtain ⟨s, hs, hsaved, hturn, hlast, hfile, t, ht, hfin⟩ := hrun
  obtain ⟨url, u, hurl, hu, hall⟩ := load_restores_iff unaryBin onePartition s onePartition_fresh
    (fun _ => rfl) (reach_of_run_ok _ hok hs) 1 ⟨7, "a"⟩ hturn [some 5] hsaved
  obtain rfl : url = "a" :=
    Option.some.inj ((CheckpointManager.getLastCP_eq.mp hurl).symm.trans hlast)
  obtain ⟨u', hu', ht⟩ := run_cons_ok.mp ht
  obtain rfl := Except.ok.inj (hu'.symm.trans hu)
  have htasks : RunOk (CheckpointManager.step unaryBin) CheckpointManager.OnlyTasks u'
      [.work 0, .reply 0] := ⟨trivial, fun _ _ => ⟨trivial, fun _ _ => trivial⟩⟩
  have hreach := reach_of_run_ok _ htasks ht
  refine ⟨s, u', t, hu, hreach, ((hall t hreach).2 hfin).mpr ?_⟩
  intro p part hpart
  match p, hpart with
  | 0, hpart =>
    obtain rfl := Option.some.inj hpart
    exact hfile

/-- Saved at "a", changed, saved at "b": a load from "a" gives what was saved at "b". -/
theorem load_ignores_url :
    Ends (CheckpointManager.step unaryBin) onePartition
      [.checkpoint 0 ⟨7, "a"⟩, .work 0, .reply 0, .update 7 [9],
        .checkpoint 1 ⟨7, "b"⟩, .work 0, .reply 0, .loadCheckpoint 2 ⟨7, "a"⟩, .work 0, .reply 0]
      fun s => s.savedAt 7 "a" = some [some 5] ∧ 2 ∈ s.finished ∧ s.contents 7 = [some 9] := by
  decide +kernel

end Tangram
