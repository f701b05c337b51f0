import Tangram.MapOutput.Stream

/-!
# Indexed partitions and the update of a batch

An `IndexedSeqPartition` (`core/partition/indexed_seq_partition.hpp`) is a vector
of objects with an index of the part that is not sorted.  As long as it is never
sorted, a batch of map output (`core/plan/update_helper.hpp`) leaves under every
key the object with the batch's messages for that key folded in:

    p.get? after the batch, at k = seqUpdate k (p.get? k) (msgsOf k batch)
-/

namespace Tangram

variable {K M O : Type}

/-- `ObjT`: its `Key()` and its constructor from a key. -/
structure ObjType (K O : Type) where
  key : O → K
  create : K → O
  key_create : ∀ k, key (create k) = k

structure IndexedSeqPartition (K O : Type) where
  storage : List O
  unsorted : K → Option Nat
  sortedSize : Nat

namespace IndexedSeqPartition

variable [LinearOrder K] (T : ObjType K O)

def empty : IndexedSeqPartition K O := ⟨[], fun _ => none, 0⟩

/-! ## Operations -/

def typedAdd (p : IndexedSeqPartition K O) (o : O) : IndexedSeqPartition K O :=
  { p with
    storage := p.storage ++ [o]
    unsorted := Function.update p.unsorted (T.key o) (some p.storage.length) }

/-- `Find`, as a place in `storage`: in the sorted part the first object whose key is not less
than `k` (whatever its key is), else what the index says. -/
def find (p : IndexedSeqPartition K O) (k : K) : Option Nat :=
  let it := (p.storage.take p.sortedSize).findIdx fun a => ¬ T.key a < k
  if p.sortedSize ≠ 0 ∧ it < p.sortedSize then some it else p.unsorted k

/-- `FindOrCreate`: the place of the object. -/
def findOrCreate (p : IndexedSeqPartition K O) (k : K) : Nat × IndexedSeqPartition K O :=
  match find T p k with
  | some i => (i, p)
  | none => (p.storage.length, typedAdd T p (T.create k))

/-- One turn of the loops of `GetJoinPartFunc` and `GetJoinPartFunc2`. -/
def joinOne (update : O → M → O) (p : IndexedSeqPartition K O) (x : K × M) :
    IndexedSeqPartition K O :=
  let (i, p) := findOrCreate T p x.1
  { p with storage := p.storage.modify i (update · x.2) }

/-- `GetJoinPartFunc2`: the messages of a stream. -/
def joinStream (update : O → M → O) (p : IndexedSeqPartition K O) (buffer : List (K × M)) :
    IndexedSeqPartition K O :=
  buffer.foldl (joinOne T update) p

/-- `GetJoinPartFunc`: the messages are read off a bin. -/
def joinBin {B : Type} (codec : Codec B (K × M)) (update : O → M → O)
    (p : IndexedSeqPartition K O) (bin : List B) : IndexedSeqPartition K O :=
  joinStream T update p (codec.decodeAll bin)

/-- The object under a key. -/
def get? (p : IndexedSeqPartition K O) (k : K) : Option O :=
  (find T p k).bind fun i => p.storage[i]?

/-! ## A partition that was never sorted -/

/-- Never sorted, every object under exactly one key. -/
structure Unsorted (p : IndexedSeqPartition K O) : Prop where
  sortedSize : p.sortedSize = 0
  inRange : ∀ k i, p.unsorted k = some i → i < p.storage.length
  inj : ∀ k k' i, p.unsorted k = some i → p.unsorted k' = some i → k = k'
  onto : ∀ i, i < p.storage.length → ∃ k, p.unsorted k = some i

variable {T} {p : IndexedSeqPartition K O}

omit [LinearOrder K] in
theorem unsorted_empty : Unsorted (empty : IndexedSeqPartition K O) where
  sortedSize := rfl
  inRange k i h := by cases h
  inj k k' i h := by cases h
  onto i h := absurd h (Nat.not_lt_zero i)

theorem Unsorted.find (h : Unsorted p) (k : K) : p.find T k = p.unsorted k := by
  simp [IndexedSeqPartition.find, h.sortedSize]

theorem Unsorted.typedAdd (h : Unsorted p) {o : O} (hnew : p.unsorted (T.key o) = none) :
    Unsorted (p.typedAdd T o) := by
  have hval : ∀ k i, (p.typedAdd T o).unsorted k = some i →
      (k = T.key o ∧ i = p.storage.length) ∨ p.unsorted k = some i := by
    intro k i hk
    by_cases he : k = T.key o
    · subst he
      simp only [IndexedSeqPartition.typedAdd, Function.update_self, Option.some.injEq] at hk
      exact .inl ⟨rfl, hk.symm⟩
    · simp only [IndexedSeqPartition.typedAdd, Function.update_of_ne he] at hk
      exact .inr hk
  have hlen : (p.typedAdd T o).storage.length = p.storage.length + 1 := by
    simp [IndexedSeqPartition.typedAdd]
  refine ⟨h.sortedSize, fun k i hk => ?_, fun k k' i hk hk' => ?_, fun i hi => ?_⟩
  · rw [hlen]
    rcases hval k i hk with ⟨-, rfl⟩ | hk
    · omega
    · have := h.inRange k i hk
      omega
  · rcases hval k i hk with ⟨rfl, rfl⟩ | hk <;> rcases hval k' _ hk' with ⟨rfl, he⟩ | hk'
    · rfl
    · exact absurd (h.inRange k' _ hk') (Nat.lt_irrefl _)
    · exact absurd (he ▸ h.inRange k i hk) (Nat.lt_irrefl _)
    · exact h.inj k k' i hk hk'
  · rw [hlen] at hi
    by_cases he : i = p.storage.length
    · exact ⟨T.key o, by simp [IndexedSeqPartition.typedAdd, he]⟩
    · obtain ⟨k, hk⟩ := h.onto i (by omega)
      refine ⟨k, ?_⟩
      have hne : k ≠ T.key o := by
        rintro rfl
        rw [hnew] at hk
        cases hk
      simp only [IndexedSeqPartition.typedAdd, Function.update_of_ne hne, hk]

theorem Unsorted.get?_typedAdd (h : Unsorted p) (o : O) (k : K) :
    (p.typedAdd T o).get? T k = if k = T.key o then some o else p.get? T k := by
  have hfind : ∀ (q : IndexedSeqPartition K O), q.sortedSize = 0 → ∀ k, q.find T k = q.unsorted k := by
    intro q hq k
    simp [IndexedSeqPartition.find, hq]
  unfold get?
  rw [hfind (p.typedAdd T o) h.sortedSize, hfind p h.sortedSize]
  split
  · next he =>
    subst he
    simp [IndexedSeqPartition.typedAdd]
  · next he =>
    simp only [IndexedSeqPartition.typedAdd, Function.update_of_ne he]
    cases hk : p.unsorted k with
    | none => rfl
    | some i =>
      have := h.inRange k i hk
      simp only [Option.bind_some]
      rw [List.getElem?_append_left this]

/-! ## Updates -/

variable {update : O → M → O}

/-- The messages of key `k`, one after the other, on the object that is there or a new one. -/
def seqUpdate (T : ObjType K O) (update : O → M → O) (k : K) (o : Option O) (ms : List M) :
    Option O :=
  ms.foldl (fun o m => some (update (o.getD (T.create k)) m)) o

section SeqUpdate

omit [LinearOrder K]

variable {k : K} {o : Option O} {ms ms' : List M}

theorem seqUpdate_append : seqUpdate T update k o (ms ++ ms') =
    seqUpdate T update k (seqUpdate T update k o ms) ms' := List.foldl_append

theorem seqUpdate_some (o : O) :
    seqUpdate T update k (some o) ms = some (ms.foldl update o) := by
  induction ms generalizing o with
  | nil => rfl
  | cons m ms ih => exact ih (update o m)

/-- Only what the messages do to an object counts, and whether there are any. -/
theorem seqUpdate_congr (hnil : ms = [] ↔ ms' = [])
    (h : ∀ o, ms.foldl update o = ms'.foldl update o) :
    seqUpdate T update k o ms = seqUpdate T update k o ms' := by
  have hcons : ∀ (m : M) (ms : List M), seqUpdate T update k o (m :: ms) =
      some ((m :: ms).foldl update (o.getD (T.create k))) := fun m ms => seqUpdate_some _
  cases ms with
  | nil =>
    rw [hnil.mp rfl]
  | cons m ms =>
    cases ms' with
    | nil => exact absurd (hnil.mpr rfl) (List.cons_ne_nil m ms)
    | cons m' ms' => rw [hcons, hcons, h]

/-- Messages that commute can be taken in any order. -/
theorem seqUpdate_perm (h : ms.Perm ms')
    (hcomm : ∀ a ∈ ms, ∀ b ∈ ms, ∀ o, update (update o a) b = update (update o b) a) :
    seqUpdate T update k o ms = seqUpdate T update k o ms' := by
  refine h.foldl_eq' (fun a ha b hb o => ?_) o
  exact congrArg some (hcomm a ha b hb _)

end SeqUpdate

/-- The object of a key is changed in its place. -/
theorem Unsorted.modify (h : Unsorted p) {k : K} {i : Nat} (hk : p.unsorted k = some i)
    (f : O → O) : Unsorted { p with storage := p.storage.modify i f } ∧
      ∀ k', get? T { p with storage := p.storage.modify i f } k' =
        if k' = k then (p.get? T k).map f else p.get? T k' := by
  have hU : Unsorted { p with storage := p.storage.modify i f } := by
    refine ⟨h.sortedSize, fun k' j hj => ?_, h.inj, fun j hj => ?_⟩
    · show j < (p.storage.modify i f).length
      rw [List.length_modify]
      exact h.inRange k' j hj
    · rw [List.length_modify] at hj
      exact h.onto j hj
  refine ⟨hU, fun k' => ?_⟩
  unfold get?
  rw [hU.find, h.find, h.find]
  show (p.unsorted k').bind (fun j => (p.storage.modify i f)[j]?) = _
  split
  · next he =>
    subst he
    rw [hk]
    simp [List.getElem?_modify]
  · next he =>
    cases hk' : p.unsorted k' with
    | none => rfl
    | some j =>
      have hne : i ≠ j := by
        rintro rfl
        exact he (h.inj k' k i hk' hk)
      simp [List.getElem?_modify, hne]

theorem Unsorted.joinOne (h : Unsorted p) (x : K × M) :
    Unsorted (p.joinOne T update x) ∧ ∀ k, get? T (p.joinOne T update x) k =
      if k = x.1 then some (update ((p.get? T k).getD (T.create k)) x.2) else p.get? T k := by
  unfold IndexedSeqPartition.joinOne findOrCreate
  rw [h.find]
  cases hx : p.unsorted x.1 with
  | some i =>
    obtain ⟨hU, hget⟩ := h.modify (T := T) hx (update · x.2)
    refine ⟨hU, fun k => ?_⟩
    rw [hget k]
    split
    · next he =>
      subst he
      have hlt := h.inRange _ i hx
      simp [get?, h.find, hx, hlt]
    · rfl
  | none =>
    -- the new object is the last one
    have hnew : p.unsorted (T.key (T.create x.1)) = none := by rw [T.key_create, hx]
    have hadd := h.typedAdd hnew
    have hlast : (p.typedAdd T (T.create x.1)).unsorted x.1 = some p.storage.length := by
      simp [IndexedSeqPartition.typedAdd, T.key_create]
    obtain ⟨hU, hget⟩ := hadd.modify (T := T) hlast (update · x.2)
    refine ⟨hU, fun k => ?_⟩
    rw [hget k]
    split
    · next he =>
      subst he
      rw [h.get?_typedAdd, T.key_create, if_pos rfl]
      simp [get?, h.find, hx]
    · next he =>
      rw [h.get?_typedAdd, T.key_create, if_neg he]

/-- **A batch of updates.** -/
theorem Unsorted.joinStream (l : List (K × M)) (h : Unsorted p) :
    Unsorted (p.joinStream T update l) ∧ ∀ k, get? T (p.joinStream T update l) k =
      seqUpdate T update k (p.get? T k) (msgsOf k l) := by
  induction l generalizing p with
  | nil => exact ⟨h, fun k => rfl⟩
  | cons x l ih =>
    obtain ⟨hU, hget⟩ : Unsorted (p.joinOne T update x) ∧ _ := h.joinOne x
    obtain ⟨hU', hget'⟩ := ih hU
    refine ⟨hU', fun k => ?_⟩
    show get? T (IndexedSeqPartition.joinStream T update (p.joinOne T update x) l) k = _
    rw [hget', hget, msgsOf_cons]
    by_cases he : k = x.1
    · rw [if_pos he, if_pos he.symm]
      rfl
    · rw [if_neg he, if_neg (Ne.symm he)]

end IndexedSeqPartition

end Tangram
