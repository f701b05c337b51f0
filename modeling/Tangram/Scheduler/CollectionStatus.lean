import Tangram.Lib.OrdMap
import Tangram.Lib.Run

/-!
# What the running plans read and write

`CollectionStatus` (`core/scheduler/collection_status.cpp`): the plans that run,
how many of them read a collection, which collections are written, and the last
checkpoint of every collection.  Times, which are only logged, are left out.

`Inv` ties the two counters to the plans; `addPlan_ok` and `finishPlan_ok` say
when the `CHECK`s of the two operations pass.  The counters are exact in every run;
readers are kept away from a writer only if no plan is added that reads what a
running plan writes, which `AddPlan` does not check (`collectionStatus_exact`).
-/

namespace Tangram

open StepRun List OrdSet OrdMap

/-- What a plan reads and what it writes. -/
structure ReadWriteVector where
  first : List Int
  second : List Int
deriving DecidableEq, Repr

inductive StatusCheck
  | getLastCP
  | addPlanNew | addPlanWritten | addPlanRead
  | finishPlanCurrent | finishPlanRead | finishPlanWritten
deriving DecidableEq, Repr

structure CollectionStatus where
  curPlans : OrdMap Int ReadWriteVector
  readIds : OrdMap Int Int
  writeIds : OrdMap Int Int
  lastCp : OrdMap Int String

namespace CollectionStatus

def empty : CollectionStatus := ⟨.empty, .empty, .empty, .empty⟩

def getLastCP (s : CollectionStatus) (cid : Int) : Except StatusCheck String :=
  match s.lastCp.get? cid with
  | none => .error .getLastCP
  | some url => .ok url

def addCP (s : CollectionStatus) (cid : Int) (url : String) : CollectionStatus :=
  { s with lastCp := s.lastCp.set cid url }

/-- `ids[c] += 1`. -/
def incr (ids : OrdMap Int Int) (c : Int) : OrdMap Int Int := ids.set c (ids.getD c 0 + 1)

/-- The turn of `AddPlan`'s loop over what is written. -/
def addWrite (s : CollectionStatus) (w : Int) : Except StatusCheck CollectionStatus := do
  check .addPlanWritten (w ∉ s.writeIds.keys)
  check .addPlanRead (w ∉ s.readIds.keys)
  return { s with writeIds := incr s.writeIds w }

def addPlan (s : CollectionStatus) (id : Int) (p : ReadWriteVector) :
    Except StatusCheck CollectionStatus := do
  check .addPlanNew (id ∉ s.curPlans.keys)
  p.second.foldlM addWrite
    { s with curPlans := s.curPlans.set id p, readIds := p.first.foldl incr s.readIds }

/-- One reader less; the entry goes with the last one. -/
def decr (ids : OrdMap Int Int) (r : Int) : OrdMap Int Int :=
  let ids := ids.set r (ids.getD r 0 - 1)
  if ids.getD r 0 = 0 then ids.erase r else ids

def dropRead (ids : OrdMap Int Int) (r : Int) : Except StatusCheck (OrdMap Int Int) := do
  check .finishPlanRead (r ∈ ids.keys)
  return decr ids r

def dropWrite (ids : OrdMap Int Int) (w : Int) : Except StatusCheck (OrdMap Int Int) := do
  check .finishPlanWritten (w ∈ ids.keys)
  return ids.erase w

/-- What plan `id` reads and writes, while it runs. -/
def rw (s : CollectionStatus) (id : Int) : ReadWriteVector := s.curPlans.getD id ⟨[], []⟩

def finishPlan (s : CollectionStatus) (id : Int) : Except StatusCheck CollectionStatus := do
  check .finishPlanCurrent (id ∈ s.curPlans.keys)
  let readIds ← (s.rw id).first.foldlM dropRead s.readIds
  let writeIds ← (s.rw id).second.foldlM dropWrite s.writeIds
  return { s with curPlans := s.curPlans.erase id, readIds := readIds, writeIds := writeIds }

def getCurrentPlans (s : CollectionStatus) : List Int := s.curPlans.keys.elems

def getReads (s : CollectionStatus) : List Int := s.readIds.keys.elems

def getWrites (s : CollectionStatus) : List Int := s.writeIds.keys.elems

/-- Collections with their last checkpoint; `GetReadsAndCP` and `GetWritesAndCP` are this loop
over the keys of one counter. -/
def withCP (s : CollectionStatus) (cids : List Int) : Except StatusCheck (List (Int × String)) :=
  cids.mapM fun c => do
    let url ← s.getLastCP c
    return (c, url)

def getReadsAndCP (s : CollectionStatus) : Except StatusCheck (List (Int × String)) :=
  s.withCP s.getReads

def getWritesAndCP (s : CollectionStatus) : Except StatusCheck (List (Int × String)) :=
  s.withCP s.getWrites

/-! ## The counters -/

/-- How often the running plans read `c`. -/
def readers (s : CollectionStatus) (c : Int) : Nat :=
  (s.getCurrentPlans.map fun id => (s.rw id).first.count c).sum

/-- The counters count the running plans, no two of which write the same collection. -/
structure Inv (s : CollectionStatus) : Prop where
  reads : ∀ c, s.readIds.getD c 0 = s.readers c
  readKeys : ∀ c, c ∈ s.readIds.keys ↔ 0 < s.readers c
  writes : ∀ c, c ∈ s.writeIds.keys ↔ ∃ id ∈ s.curPlans.keys, c ∈ (s.rw id).second
  nodup : ∀ id ∈ s.curPlans.keys, (s.rw id).second.Nodup
  disjoint : ∀ id ∈ s.curPlans.keys, ∀ id' ∈ s.curPlans.keys, id ≠ id' →
    ∀ c ∈ (s.rw id).second, c ∉ (s.rw id').second

variable {s : CollectionStatus} {id : Int} (l : List Int) (m : OrdMap Int Int)

theorem inv_empty : Inv empty := by
  have hnone : ∀ id, id ∉ empty.curPlans.keys := notMem_empty
  have hreaders : ∀ c, empty.readers c = 0 := fun _ => rfl
  constructor
  · exact fun _ => rfl
  · intro c
    rw [hreaders]
    exact ⟨fun h => absurd h (notMem_empty c), fun h => absurd h (lt_irrefl 0)⟩
  · exact fun c => ⟨fun h => absurd h (notMem_empty c), fun ⟨id, hid, _⟩ => absurd hid (hnone id)⟩
  · exact fun id hid => absurd hid (hnone id)
  · exact fun id hid => absurd hid (hnone id)

theorem Inv.mem_readIds (h : Inv s) {c : Int} :
    c ∈ s.readIds.keys ↔ ∃ id ∈ s.curPlans.keys, c ∈ (s.rw id).first := by
  rw [h.readKeys, readers, Nat.pos_iff_ne_zero, ne_eq, sum_eq_zero_iff]
  simp [getCurrentPlans, mem_def, count_eq_zero]

theorem getD_foldl_incr (c : Int) : (l.foldl incr m).getD c 0 = m.getD c 0 + l.count c := by
  induction l generalizing m with
  | nil => simp
  | cons a l ih =>
    rw [foldl_cons, ih, incr, getD_set, count_cons]
    by_cases h : c = a
    · subst h
      simp
      omega
    · simp [h, Ne.symm h]

theorem mem_foldl_incr (c : Int) : c ∈ (l.foldl incr m).keys ↔ c ∈ m.keys ∨ c ∈ l := by
  induction l generalizing m with
  | nil => simp
  | cons a l ih =>
    rw [foldl_cons, ih, incr, keys_set, mem_insert, mem_cons]
    tauto

/-! ### A plan is added -/

section Add

variable {p : ReadWriteVector}

/-- The loop over what is written passes if the collections are new to both counters. -/
theorem foldlM_addWrite (s : CollectionStatus) (hnd : l.Nodup) (hw : ∀ w ∈ l, w ∉ s.writeIds.keys)
    (hr : ∀ w ∈ l, w ∉ s.readIds.keys) :
    l.foldlM addWrite s = .ok { s with writeIds := l.foldl incr s.writeIds } := by
  induction l generalizing s with
  | nil => rfl
  | cons a l ih =>
    obtain ⟨ha, hnd⟩ := nodup_cons.mp hnd
    have hadd : addWrite s a = .ok { s with writeIds := incr s.writeIds a } := by
      simp [addWrite, check, hw a, hr a, Bind.bind, Except.bind, pure, Except.pure]
    rw [foldlM_cons, hadd]
    refine ih _ hnd (fun w hwl => ?_) fun w hwl => hr w (mem_cons_of_mem _ hwl)
    have hne : w ≠ a := by
      rintro rfl
      exact ha hwl
    simp [incr, hne, hw w (mem_cons_of_mem _ hwl)]

theorem rw_set (s : CollectionStatus) (id id' : Int) (p : ReadWriteVector) :
    (s.curPlans.set id p).getD id' ⟨[], []⟩ = if id' = id then p else s.rw id' :=
  getD_set _ _ _ _ _

/-- **`AddPlan` passes** for a new plan whose writes no running plan reads or writes, and which
does not read what it writes. -/
theorem addPlan_ok (h : Inv s) (hid : id ∉ s.curPlans.keys) (hnd : p.second.Nodup)
    (hself : ∀ w ∈ p.second, w ∉ p.first)
    (hfree : ∀ id' ∈ s.curPlans.keys, ∀ w ∈ p.second,
      w ∉ (s.rw id').first ∧ w ∉ (s.rw id').second) :
    ∃ s', addPlan s id p = .ok s' ∧ Inv s' ∧ s'.curPlans = s.curPlans.set id p ∧
      s'.lastCp = s.lastCp := by
  have hloop := foldlM_addWrite p.second
    { s with curPlans := s.curPlans.set id p, readIds := p.first.foldl incr s.readIds } hnd
    (fun w hw hmem => by
      obtain ⟨id', hid', hw'⟩ := (h.writes w).mp hmem
      exact (hfree id' hid' w hw).2 hw')
    (fun w hw hmem => by
      rcases (mem_foldl_incr _ _ _).mp hmem with hmem | hmem
      · obtain ⟨id', hid', hw'⟩ := h.mem_readIds.mp hmem
        exact (hfree id' hid' w hw).1 hw'
      · exact hself w hw hmem)
  refine ⟨⟨s.curPlans.set id p, p.first.foldl incr s.readIds, p.second.foldl incr s.writeIds,
    s.lastCp⟩, ?_, ?_, rfl, rfl⟩
  · unfold addPlan
    rw [check_pos hid]
    exact hloop
  -- what the new status says about the plans
  have hne : ∀ id' ∈ s.curPlans.keys, id' ≠ id := by
    rintro id' hid' rfl
    exact hid hid'
  have hreaders : ∀ c, CollectionStatus.readers
      ⟨s.curPlans.set id p, p.first.foldl incr s.readIds, p.second.foldl incr s.writeIds, s.lastCp⟩ c =
        p.first.count c + s.readers c := by
    intro c
    have hperm := ((perm_insert hid).map fun id' =>
      ((s.curPlans.set id p).getD id' ⟨[], []⟩).first.count c).sum_eq
    refine hperm.trans ?_
    rw [map_cons, sum_cons, rw_set, if_pos rfl]
    congr 1
    exact congrArg List.sum (map_congr_left fun id' hid' => by
      rw [rw_set, if_neg (hne id' hid')])
  constructor
  · intro c
    rw [hreaders, getD_foldl_incr, h.reads c]
    push_cast
    omega
  · intro c
    rw [hreaders, mem_foldl_incr, h.readKeys c, ← count_pos_iff]
    omega
  · intro c
    rw [mem_foldl_incr, h.writes c]
    constructor
    · rintro (⟨id', hid', hc⟩ | hc)
      · exact ⟨id', mem_insert.mpr (.inr hid'), by
          rw [rw, rw_set, if_neg (hne id' hid')]; exact hc⟩
      · exact ⟨id, mem_insert.mpr (.inl rfl), by rw [rw, rw_set, if_pos rfl]; exact hc⟩
    · rintro ⟨id', hid', hc⟩
      rw [rw, rw_set] at hc
      split at hc
      · exact .inr hc
      · next hn => exact .inl ⟨id', (mem_insert.mp hid').resolve_left hn, hc⟩
  · intro id' hid'
    rw [rw, rw_set]
    split
    · exact hnd
    · next hn => exact h.nodup id' ((mem_insert.mp hid').resolve_left hn)
  · intro i hi j hj hij c hci hcj
    rw [rw, rw_set] at hci hcj
    split at hci
    · split at hcj
      · omega
      · next hn => exact (hfree j ((mem_insert.mp hj).resolve_left hn) c hci).2 hcj
    · next hn =>
      have hi' := (mem_insert.mp hi).resolve_left hn
      split at hcj
      · exact (hfree i hi' c hcj).2 hci
      · next hm => exact h.disjoint i hi' j ((mem_insert.mp hj).resolve_left hm) hij c hci hcj

end Add

/-! ### A plan is finished -/

section Finish

theorem getD_decr (a c : Int) :
    (decr m a).getD c 0 = if c = a then m.getD a 0 - 1 else m.getD c 0 := by
  unfold decr
  simp only [getD_set, if_true]
  split
  · next h0 =>
    rw [getD_erase, getD_set]
    split
    · omega
    · rfl
  · rw [getD_set]

theorem mem_decr {m : OrdMap Int Int} {a c : Int} (ha : a ∈ m.keys) :
    c ∈ (decr m a).keys ↔ c ∈ m.keys ∧ (c = a → m.getD a 0 ≠ 1) := by
  unfold decr
  simp only [getD_set, if_true]
  split
  · next h0 =>
    rw [keys_erase, keys_set, mem_erase, mem_insert]
    constructor
    · rintro ⟨hne, rfl | hc⟩
      · exact absurd rfl hne
      · exact ⟨hc, fun he => absurd he hne⟩
    · rintro ⟨hc, h1⟩
      exact ⟨fun he => h1 he (by omega), .inr hc⟩
  · next h0 =>
    rw [keys_set, mem_insert]
    constructor
    · rintro (rfl | hc)
      · exact ⟨ha, fun _ => by omega⟩
      · exact ⟨hc, fun _ => by omega⟩
    · exact fun h => .inr h.1

/-- The readers of `l` leave one after the other, where the counter counts them and others. -/
theorem foldlM_dropRead (others : Int → Nat) (hval : ∀ c, m.getD c 0 = l.count c + others c)
    (hkeys : ∀ c, c ∈ m.keys ↔ 0 < l.count c + others c) :
    ∃ m', l.foldlM dropRead m = .ok m' ∧ (∀ c, m'.getD c 0 = others c) ∧
      ∀ c, c ∈ m'.keys ↔ 0 < others c := by
  induction l generalizing m with
  | nil => exact ⟨m, rfl, fun c => by simpa using hval c, fun c => by simpa using hkeys c⟩
  | cons a l ih =>
    have ha : a ∈ m.keys := (hkeys a).mpr (by rw [count_cons_self]; omega)
    have hone : ∀ c, (a :: l).count c = l.count c + if c = a then 1 else 0 := by
      intro c
      rw [count_cons]
      by_cases hc : c = a
      · simp [hc]
      · simp [hc, Ne.symm hc]
    have hstep : dropRead m a = .ok (decr m a) := by
      simp [dropRead, check, ha, Bind.bind, Except.bind, pure, Except.pure]
    rw [foldlM_cons, hstep]
    refine ih (decr m a) (fun c => ?_) fun c => ?_
    · have := hval c
      rw [hone] at this
      rw [getD_decr]
      split
      · next hc =>
        subst hc
        rw [if_pos rfl] at this
        push_cast at this
        omega
      · next hc =>
        rw [if_neg hc] at this
        push_cast at this
        omega
    · have hc := hkeys c
      rw [hone] at hc
      rw [mem_decr ha, hc]
      by_cases he : c = a
      · subst he
        have := hval c
        rw [hone, if_pos rfl] at this
        push_cast at this
        simp only [if_true, forall_const]
        omega
      · simp [he]

theorem foldlM_dropWrite (hnd : l.Nodup) (hl : ∀ w ∈ l, w ∈ m.keys) :
    ∃ m', l.foldlM dropWrite m = .ok m' ∧ ∀ c, c ∈ m'.keys ↔ c ∈ m.keys ∧ c ∉ l := by
  induction l generalizing m with
  | nil => exact ⟨m, rfl, by simp⟩
  | cons a l ih =>
    obtain ⟨ha, hnd⟩ := nodup_cons.mp hnd
    have hstep : dropWrite m a = .ok (m.erase a) := by
      simp [dropWrite, check, hl a, Bind.bind, Except.bind, pure, Except.pure]
    rw [foldlM_cons, hstep]
    obtain ⟨m', hm', hkeys⟩ := ih (m.erase a) hnd fun w hw => by
      have hne : w ≠ a := by
        rintro rfl
        exact ha hw
      simp [hne, hl w (mem_cons_of_mem _ hw)]
    refine ⟨m', hm', fun c => ?_⟩
    rw [hkeys c]
    simp only [keys_erase, mem_erase, mem_cons, not_or]
    tauto

theorem rw_erase (s : CollectionStatus) {id id' : Int} (h : id' ≠ id) :
    (s.curPlans.erase id).getD id' ⟨[], []⟩ = s.rw id' := by
  rw [getD_erase, if_neg h]
  rfl

/-- **`FinishPlan` passes** for a running plan. -/
theorem finishPlan_ok (h : Inv s) (hid : id ∈ s.curPlans.keys) :
    ∃ s', finishPlan s id = .ok s' ∧ Inv s' ∧ s'.curPlans = s.curPlans.erase id ∧
      s'.lastCp = s.lastCp := by
  have hreaders : ∀ c, s.readers c = (s.rw id).first.count c +
      ((s.curPlans.keys.erase id).elems.map fun id' =>
        ((s.curPlans.erase id).getD id' ⟨[], []⟩).first.count c).sum := by
    intro c
    refine ((perm_erase hid).map fun id' => (s.rw id').first.count c).sum_eq.trans ?_
    rw [map_cons, sum_cons]
    congr 1
    exact congrArg List.sum (map_congr_left fun id' hid' => by
      rw [rw_erase s (mem_erase.mp hid').1])
  obtain ⟨readIds, hread, hval, hkeys⟩ := foldlM_dropRead (s.rw id).first s.readIds _
    (fun c => by rw [h.reads c, hreaders c]; exact Int.natCast_add _ _)
    (fun c => by rw [h.readKeys c, hreaders c])
  obtain ⟨writeIds, hwrite, hwkeys⟩ := foldlM_dropWrite (s.rw id).second s.writeIds
    (h.nodup id hid) (fun w hw => (h.writes w).mpr ⟨id, hid, hw⟩)
  refine ⟨⟨s.curPlans.erase id, readIds, writeIds, s.lastCp⟩, ?_, ?_, rfl, rfl⟩
  · unfold finishPlan
    rw [check_pos hid]
    show (List.foldlM dropRead s.readIds _ >>= _) = _
    rw [hread]
    show (List.foldlM dropWrite s.writeIds _ >>= _) = _
    rw [hwrite]
    rfl
  · have hkept : ∀ id', id' ∈ s.curPlans.keys.erase id → id' ≠ id ∧ id' ∈ s.curPlans.keys :=
      fun id' hid' => mem_erase.mp hid'
    constructor
    · exact hval
    · exact hkeys
    · intro c
      rw [hwkeys c, h.writes c]
      constructor
      · rintro ⟨⟨id', hid', hc⟩, hnot⟩
        have hne : id' ≠ id := by
          rintro rfl
          exact hnot hc
        exact ⟨id', mem_erase.mpr ⟨hne, hid'⟩, by rw [rw, rw_erase s hne]; exact hc⟩
      · rintro ⟨id', hid', hc⟩
        obtain ⟨hne, hmem⟩ := hkept id' hid'
        rw [rw, rw_erase s hne] at hc
        exact ⟨⟨id', hmem, hc⟩, h.disjoint id' hmem id hid hne c hc⟩
    · intro id' hid'
      obtain ⟨hne, hmem⟩ := hkept id' hid'
      rw [rw, rw_erase s hne]
      exact h.nodup id' hmem
    · intro i hi j hj hij c hci
      obtain ⟨hni, hmi⟩ := hkept i hi
      obtain ⟨hnj, hmj⟩ := hkept j hj
      rw [rw, rw_erase s hni] at hci
      rw [rw, rw_erase s hnj]
      exact h.disjoint i hmi j hmj hij c hci

end Finish

/-! ## Runs -/

section Runs

variable {p : ReadWriteVector} {s' : CollectionStatus}

inductive Call
  | addPlan (id : Int) (p : ReadWriteVector)
  | finishPlan (id : Int)

def call (s : CollectionStatus) : Call → Except StatusCheck CollectionStatus
  | .addPlan id p => s.addPlan id p
  | .finishPlan id => s.finishPlan id

/-- No running plan writes what another one reads. -/
def Exclusive (s : CollectionStatus) : Prop :=
  ∀ id ∈ s.curPlans.keys.elems, ∀ id' ∈ s.curPlans.keys.elems, id ≠ id' →
    ∀ c ∈ (s.rw id).first, c ∉ (s.rw id').second

instance (s : CollectionStatus) : Decidable s.Exclusive := by
  unfold Exclusive; infer_instance

/-- A plan that is added reads nothing that is being written. -/
def Unwritten (s : CollectionStatus) : Call → Prop
  | .addPlan _ p => ∀ r ∈ p.first, r ∉ s.writeIds.keys
  | .finishPlan _ => True

instance (s : CollectionStatus) (a : Call) : Decidable (s.Unwritten a) := by
  cases a <;> unfold Unwritten <;> infer_instance

/-- The loop over what is written passes only if the collections are new to both counters. -/
theorem of_foldlM_addWrite {l : List Int} (h : l.foldlM addWrite s = .ok s') :
    l.Nodup ∧ ∀ w ∈ l, w ∉ s.writeIds.keys ∧ w ∉ s.readIds.keys := by
  induction l generalizing s with
  | nil => exact ⟨nodup_nil, by simp⟩
  | cons a l ih =>
    rw [foldlM_cons] at h
    obtain ⟨t, ht, h⟩ := bind_eq_ok.mp h
    unfold addWrite at ht
    obtain ⟨_, hw, ht⟩ := bind_eq_ok.mp ht
    obtain ⟨_, hr, ht⟩ := bind_eq_ok.mp ht
    cases ht
    obtain ⟨hnd, hl⟩ := ih h
    refine ⟨nodup_cons.mpr ⟨fun ha => (hl a ha).1 (by simp [incr]), hnd⟩, fun w hmem => ?_⟩
    rcases mem_cons.mp hmem with rfl | hmem
    · exact ⟨check_eq_ok.mp hw, check_eq_ok.mp hr⟩
    · refine ⟨fun hin => (hl w hmem).1 ?_, (hl w hmem).2⟩
      exact mem_insert.mpr (.inr hin)

/-- What the `CHECK`s of `AddPlan` establish. -/
theorem addPlan_checked (h : Inv s) (hadd : addPlan s id p = .ok s') :
    id ∉ s.curPlans.keys ∧ Inv s' ∧ s'.curPlans = s.curPlans.set id p ∧
      ∀ id' ∈ s.curPlans.keys, ∀ w ∈ p.second, w ∉ (s.rw id').first := by
  have hadd' := hadd
  unfold addPlan at hadd'
  obtain ⟨_, hid, hloop⟩ := bind_eq_ok.mp hadd'
  have hid : id ∉ s.curPlans.keys := check_eq_ok.mp hid
  obtain ⟨hnd, hnew⟩ := of_foldlM_addWrite hloop
  -- the second counter has what running plans read and what the new one reads
  have hread : ∀ w ∈ p.second, w ∉ s.readIds.keys ∧ w ∉ p.first := by
    intro w hw
    have := (hnew w hw).2
    rwa [mem_foldl_incr, not_or] at this
  have hfree : ∀ id' ∈ s.curPlans.keys, ∀ w ∈ p.second,
      w ∉ (s.rw id').first ∧ w ∉ (s.rw id').second := by
    intro id' hid' w hw
    constructor
    · exact fun hf => (hread w hw).1 (h.mem_readIds.mpr ⟨id', hid', hf⟩)
    · exact fun hs => (hnew w hw).1 ((h.writes w).mpr ⟨id', hid', hs⟩)
  obtain ⟨t, ht, hinv, hcur, -⟩ := addPlan_ok h hid hnd (fun w hw => (hread w hw).2) hfree
  cases Except.ok.inj (hadd.symm.trans ht)
  exact ⟨hid, hinv, hcur, fun id' hid' w hw => (hfree id' hid' w hw).1⟩

/-- The plans after an `AddPlan` that passes. -/
theorem addPlan_plans (h : Inv s) (hadd : addPlan s id p = .ok s') :
    Inv s' ∧ id ∉ s.curPlans.keys ∧
      (∀ x, x ∈ s'.curPlans.keys ↔ x = id ∨ x ∈ s.curPlans.keys) ∧
      ∀ x, s'.rw x = if x = id then p else s.rw x := by
  obtain ⟨hid, hinv, hcur, -⟩ := addPlan_checked h hadd
  refine ⟨hinv, hid, fun x => ?_, fun x => ?_⟩
  · rw [hcur]
    exact mem_insert
  · rw [rw, hcur, rw_set]

/-- The plans after a `FinishPlan` that passes. -/
theorem finishPlan_plans (h : Inv s) (hfin : finishPlan s id = .ok s') :
    Inv s' ∧ (∀ x, x ∈ s'.curPlans.keys ↔ x ≠ id ∧ x ∈ s.curPlans.keys) ∧
      ∀ x, x ≠ id → s'.rw x = s.rw x := by
  have hid : id ∈ s.curPlans.keys := by
    obtain ⟨_, hid, _⟩ := bind_eq_ok.mp hfin
    exact check_eq_ok.mp hid
  obtain ⟨t, ht, hinv, hcur, -⟩ := finishPlan_ok h hid
  cases Except.ok.inj (hfin.symm.trans ht)
  refine ⟨hinv, fun x => ?_, fun x hx => ?_⟩
  · rw [hcur]
    exact mem_erase
  · rw [rw, hcur, rw_erase s hx]

/-- **Readers and writers after one call** are kept apart exactly if the call says so. -/
theorem call_step (h : Inv s) {a : Call} (ha : s.call a = .ok s') :
    Inv s' ∧ (s.Exclusive → (s'.Exclusive ↔ s.Unwritten a)) := by
  cases a with
  | finishPlan id =>
    have hid : id ∈ s.curPlans.keys := by
      obtain ⟨_, hid, _⟩ := bind_eq_ok.mp ha
      exact check_eq_ok.mp hid
    obtain ⟨t, ht, hinv, hcur, -⟩ := finishPlan_ok h hid
    cases Except.ok.inj (ha.symm.trans ht)
    refine ⟨hinv, fun hex => iff_of_true (fun i hi j hj hij c hc => ?_) trivial⟩
    rw [hcur] at hi hj
    obtain ⟨hni, hmi⟩ := mem_erase.mp hi
    obtain ⟨hnj, hmj⟩ := mem_erase.mp hj
    rw [rw, hcur, rw_erase s hni] at hc
    rw [rw, hcur, rw_erase s hnj]
    exact hex i hmi j hmj hij c hc
  | addPlan id p =>
    obtain ⟨hid, hinv, hcur, hfree⟩ := addPlan_checked h ha
    have hne : ∀ {i}, i ∈ s.curPlans.keys → i ≠ id := by
      rintro i hi rfl
      exact hid hi
    have hrw : ∀ i, s'.rw i = if i = id then p else s.rw i := by
      intro i
      rw [rw, hcur, rw_set]
    have hmem : ∀ {i}, i ∈ s'.curPlans.keys.elems → i ≠ id → i ∈ s.curPlans.keys := by
      intro i hi hni
      rw [hcur] at hi
      exact (mem_insert.mp hi).resolve_left hni
    refine ⟨hinv, fun hex => ⟨fun hex' r hr hw => ?_, fun hun i hi j hj hij c hc => ?_⟩⟩
    · obtain ⟨j, hj, hw⟩ := (h.writes r).mp hw
      have hold : j ∈ s'.curPlans.keys.elems := by
        rw [hcur]
        exact mem_insert.mpr (.inr hj)
      have hnew : id ∈ s'.curPlans.keys.elems := by
        rw [hcur]
        exact mem_insert.mpr (.inl rfl)
      refine hex' id hnew j hold (hne hj).symm r ?_ ?_
      · rw [hrw, if_pos rfl]
        exact hr
      · rw [hrw, if_neg (hne hj)]
        exact hw
    · rw [hrw] at hc ⊢
      by_cases hi' : i = id
      · rw [if_pos hi'] at hc
        have hj' : j ≠ id := fun hj' => hij (hi'.trans hj'.symm)
        rw [if_neg hj']
        exact fun hw => hun c hc ((h.writes c).mpr ⟨j, hmem hj hj', hw⟩)
      · rw [if_neg hi'] at hc
        by_cases hj' : j = id
        · rw [if_pos hj']
          exact fun hw => hfree i (hmem hi hi') c hw hc
        · rw [if_neg hj']
          exact hex i (hmem hi hi') j (hmem hj hj') hij c hc

theorem run_inv (h : Inv s) (calls : List Call) (hrun : run call s calls = .ok s') : Inv s' := by
  induction calls generalizing s with
  | nil =>
    cases hrun
    exact h
  | cons a calls ih =>
    obtain ⟨u, hu, hrun⟩ := run_cons_ok.mp hrun
    exact ih (call_step h hu).1 hrun

/-- All states of a run keep readers and writers apart exactly if all its calls say so. -/
theorem run_exclusive (h : Inv s) (hex : s.Exclusive) (calls : List Call)
    (hrun : run call s calls = .ok s') :
    (∀ done, done <+: calls → ∀ t, run call s done = .ok t → t.Exclusive) ↔
      RunOk call Unwritten s calls := by
  induction calls generalizing s with
  | nil =>
    refine iff_of_true (fun done hdone t ht => ?_) trivial
    cases prefix_nil.mp hdone
    cases ht
    exact hex
  | cons a calls ih =>
    obtain ⟨u, hu, hrest⟩ := run_cons_ok.mp hrun
    obtain ⟨hinv, hstep⟩ := call_step h hu
    constructor
    · intro hall
      have hex' : u.Exclusive := hall [a] (cons_prefix_cons.mpr ⟨rfl, nil_prefix⟩) u
        (run_cons_ok.mpr ⟨u, hu, rfl⟩)
      refine ⟨(hstep hex).mp hex', fun t ht => ?_⟩
      cases Except.ok.inj (hu.symm.trans ht)
      refine (ih hinv hex' hrest).mp fun done hdone v hv => ?_
      exact hall (a :: done) (cons_prefix_cons.mpr ⟨rfl, hdone⟩) v
        (run_cons_ok.mpr ⟨u, hu, hv⟩)
    · intro hok done hdone t ht
      match done, hdone with
      | [], _ =>
        cases ht
        exact hex
      | b :: done, hdone =>
        obtain ⟨rfl, hpre⟩ := cons_prefix_cons.mp hdone
        obtain ⟨v, hv, ht⟩ := run_cons_ok.mp ht
        cases Except.ok.inj (hu.symm.trans hv)
        exact (ih hinv ((hstep hex).mpr hok.1) hrest).mpr (hok.2 u hu) done hpre t ht

/-- **The status is exact in every run**: the first counter counts what the running plans read,
the second has what they write, and a running plan can be finished.  Readers are kept away from
a writer in all states of the run exactly if no plan is added that reads what is being written. -/
theorem collectionStatus_exact (calls : List Call) (s : CollectionStatus)
    (hrun : run call empty calls = .ok s) :
    (∀ c, s.readIds.getD c 0 = s.readers c) ∧ (∀ c ∈ s.readIds.keys, s.readIds.getD c 0 ≠ 0) ∧
      (∀ c, c ∈ s.writeIds.keys ↔ ∃ id ∈ s.curPlans.keys, c ∈ (s.rw id).second) ∧
      (∀ id ∈ s.curPlans.keys, ∃ t, s.finishPlan id = .ok t) ∧
      ((∀ done, done <+: calls → ∀ t, run call empty done = .ok t → t.Exclusive) ↔
        RunOk call Unwritten empty calls) := by
  have h := run_inv inv_empty calls hrun
  refine ⟨h.reads, fun c hc => ?_, h.writes, fun id hid => ?_, ?_⟩
  · have hpos := (h.readKeys c).mp hc
    rw [h.reads c]
    omega
  · obtain ⟨t, ht, -⟩ := finishPlan_ok h hid
    exact ⟨t, ht⟩
  · refine run_exclusive inv_empty (fun id hid => ?_) calls hrun
    exact absurd hid (notMem_empty id)

/-- A reader of collection 1, twice, and then its writer. -/
def readTwice : List Call :=
  [.addPlan 0 ⟨[1, 1], [2]⟩, .addPlan 1 ⟨[1], []⟩, .finishPlan 0, .finishPlan 1,
    .addPlan 2 ⟨[], [1]⟩]

theorem collectionStatus_exact_readTwice :
    ∃ s, run call empty readTwice = .ok s ∧ s.readers 1 = 0 ∧ 1 ∈ s.writeIds.keys ∧
      s.readIds.getD 1 0 = 0 ∧
      ∀ done, done <+: readTwice → ∀ t, run call empty done = .ok t → t.Exclusive := by
  have hend : Ends call empty readTwice fun s =>
      s.readers 1 = 0 ∧ 1 ∈ s.writeIds.keys ∧ RunOk call Unwritten empty readTwice := by
    decide +kernel
  obtain ⟨s, hs, hr, hw, hok⟩ := hend
  obtain ⟨hreads, -, -, -, hiff⟩ := collectionStatus_exact readTwice s hs
  refine ⟨s, hs, hr, hw, ?_, hiff.mpr hok⟩
  rw [hreads, hr]
  rfl

end Runs

end CollectionStatus

end Tangram
