import Tangram.Cache.FetchObjs
import Tangram.Lib.Words
import Tangram.Plan.UpdateHelper

/-!
# Objects by their keys

`TypedCache::Get` (`core/cache/typed_cache.hpp`) writes each key to the stream of its
partition, has the streams answered by the getter functions (`GetGetterFunc`,
`core/plan/collection.hpp`), reads objects from each answer until it is empty and sorts
them.  Which answer belongs to which key is known from the order of the keys only.

For sorted keys, answers in any order and any sort, the objects are those of the keys,
one by one, if and only if the keys and the objects write at least one byte each and a
key can be read into the variable that holds the one before it (`Legible`).
-/

namespace Tangram

open StepRun BinType List SArrayBinStream

variable {K O P : Type}

/-! ## Model -/

/-- `rets` and `objs` are the two `CHECK_EQ`s of `Get`. -/
inductive GetStop
  | bin (c : BinCheck)
  | rets | objs
  | turns
deriving DecidableEq, Repr

namespace TypedCache

section Model

variable (kt : BinType K) (ot : BinType O) (mapper : K → Nat) (findOrCreate : P → K → O × P)

/-- `int partition_id = typed_mapper->Get(key)`. -/
def partitionId (key : K) : Int := Words.toInt (mapper key)

def partition (keys : List K) : Except BinCheck (OrdMap Int SArrayBinStream) :=
  keys.foldlM (fun parts key => do
    let bin ← kt.out (parts.getD (partitionId mapper key) .empty) key
    return parts.set (partitionId mapper key) bin) .empty

/-- `while (bin.Size())`, for at most so many turns.  `key` is declared before the loop. -/
def getterFunc : Nat → P → K → SArrayBinStream → SArrayBinStream → Except GetStop SArrayBinStream
  | 0, _, _, bin, reply => if bin.size = 0 then .ok reply else .error .turns
  | n + 1, p, key, bin, reply =>
    if bin.size = 0 then .ok reply
    else do
      let (key, bin) ← (kt.inn bin key).mapError .bin
      let reply ← (ot.out reply (findOrCreate p key).1).mapError .bin
      getterFunc n (findOrCreate p key).2 key bin reply

/-- The loop on one of the answers; `obj` is declared in the loop. -/
def readObjs : Nat → SArrayBinStream → Except GetStop (List O)
  | 0, bin => if bin.size = 0 then .ok [] else .error .turns
  | n + 1, bin =>
    if bin.size = 0 then .ok []
    else do
      let (obj, bin) ← (ot.inn bin ot.init).mapError .bin
      return obj :: (← readObjs n bin)

def organzie (n : Nat) (sort : List O → List O) (rets : List SArrayBinStream) :
    Except GetStop (List O) := do
  let objs ← rets.mapM (readObjs ot n)
  return sort objs.flatten

/-- `parts` are the partitions of the collection, `arrive` is the order in which they answer. -/
def get (n : Nat) (sort : List O → List O) (parts : Int → P)
    (arrive : List (Int × SArrayBinStream) → List (Int × SArrayBinStream)) (keys : List K) :
    Except GetStop (List O) := do
  let partToKeys ← (partition kt mapper keys).mapError .bin
  let rets ← (arrive partToKeys.entries).mapM fun (partId, bin) =>
    getterFunc kt ot findOrCreate n (parts partId) kt.init bin .empty
  check .rets (rets.length = partToKeys.keys.elems.length)
  let objs ← organzie ot n sort rets
  check .objs (objs.length = keys.length)
  return objs

end Model

/-! ## What is assumed, and what is to hold -/

/-- `FindOrCreate` returns the object that the partition holds for the key, and changes none. -/
structure Finds (findOrCreate : P → K → O × P) (held : P → K → O) : Prop where
  obj : ∀ p k, (findOrCreate p k).1 = held p k
  keep : ∀ p k k', held (findOrCreate p k).2 k' = held p k'

/-- `std::sort` by the keys: it says nothing about the order of objects with equal keys. -/
def Sorts [LinearOrder K] (key : O → K) (sort : List O → List O) : Prop :=
  ∀ l, (sort l).Perm l ∧ (sort l).Pairwise fun a b => key a ≤ key b

/-- Keys and objects fit the streams; objects that count as equal have the same key. -/
structure GetTypes (kt : BinType K) (ot : BinType O) (key : O → K) : Prop where
  keys : RoundTrip kt
  strict : Strict kt
  sharp : Sharp kt
  objs : RoundTrip ot
  key : ∀ o o', ot.eqv o o' → key o = key o'

/-- The keys that go to a partition. -/
def keysOf (mapper : K → Nat) (keys : List K) (partId : Int) : List K :=
  keys.filter (partitionId mapper · = partId)

/-- The object for a key. -/
def objOf (mapper : K → Nat) (held : P → K → O) (parts : Int → P) (k : K) : O :=
  held (parts (partitionId mapper k)) k

/-- The collection has an object of every key asked for, and the streams can take keys and
objects. -/
structure Fits (kt : BinType K) (ot : BinType O) (key : O → K) (mapper : K → Nat) (held : P → K → O)
    (parts : Int → P) (keys : List K) : Prop where
  key : ∀ k ∈ keys, key (objOf mapper held parts k) = k
  validKey : ∀ k ∈ keys, kt.valid k ∧ kt.size k < 2 ^ 31
  validObj : ∀ k ∈ keys, ot.valid (objOf mapper held parts k) ∧ ot.size (objOf mapper held parts k) < 2 ^ 31
  keyBytes : ∀ p, ((keysOf mapper keys p).flatMap kt.bytes).length < 2 ^ 31
  objBytes : ∀ p, ((keysOf mapper keys p).flatMap fun k =>
    ot.bytes (objOf mapper held parts k)).length < 2 ^ 31

/-- `Get` returns, with as many turns of its loops as there are keys, an object for each key: the
one with this key that its partition holds. -/
def Answers [LinearOrder K] (kt : BinType K) (ot : BinType O) (key : O → K) (mapper : K → Nat)
    (findOrCreate : P → K → O × P) (held : P → K → O) (parts : Int → P) (keys : List K) : Prop :=
  ∀ n, keys.length ≤ n → ∀ sort, Sorts key sort → ∀ arrive, (∀ l, (arrive l).Perm l) →
    ∃ objs, get kt ot mapper findOrCreate n sort parts arrive keys = .ok objs ∧
      keys.Forall₂ (fun k o => key o = k ∧ ot.eqv (objOf mapper held parts k) o) objs

/-- Keys and objects write something, and every key of a partition but the last leaves a variable
that can be read into. -/
structure Legible (kt : BinType K) (ot : BinType O) (mapper : K → Nat) (held : P → K → O)
    (parts : Int → P) (keys : List K) : Prop where
  keyBytes : ∀ k ∈ keys, kt.bytes k ≠ []
  objBytes : ∀ k ∈ keys, ot.bytes (objOf mapper held parts k) ≠ []
  fresh : ∀ p, ∀ k ∈ (keysOf mapper keys p).dropLast, kt.fresh k

variable {kt : BinType K} {ot : BinType O} {key : O → K} {mapper : K → Nat}
  {findOrCreate : P → K → O × P} {held : P → K → O} {parts : Int → P} {keys : List K}
  {sort : List O → List O} {n : Nat} {bin : SArrayBinStream}
  {arrive : List (Int × SArrayBinStream) → List (Int × SArrayBinStream)}

theorem mem_keysOf {k : K} {p : Int} : k ∈ keysOf mapper keys p ↔ k ∈ keys ∧ partitionId mapper k = p := by
  unfold keysOf
  rw [mem_filter, decide_eq_true_eq]

theorem objOf_of_mem {k : K} {p : Int} (h : k ∈ keysOf mapper keys p) :
    objOf mapper held parts k = held (parts p) k := by
  rw [← (mem_keysOf.mp h).2]
  rfl

theorem keysOf_concat (l : List K) (k : K) (p : Int) : keysOf mapper (l ++ [k]) p =
    keysOf mapper l p ++ if partitionId mapper k = p then [k] else [] := by
  unfold keysOf
  rw [filter_append]
  congr 1
  by_cases hp : partitionId mapper k = p
  · simp [hp]
  · simp [hp]

/-! ## Partition -/

theorem partition_ok (mapper : K → Nat) (ht : RoundTrip kt) (hk : ∀ k ∈ keys, kt.valid k ∧ kt.size k < 2 ^ 31) :
    ∃ m, partition kt mapper keys = .ok m ∧ ∀ p, m.get? p =
      if keysOf mapper keys p = [] then none
      else some (SArrayBinStream.empty.addBin ((keysOf mapper keys p).flatMap kt.bytes)) := by
  have hloop : ∀ (l pre : List K) (m : OrdMap Int SArrayBinStream), (∀ k ∈ l, kt.valid k ∧ kt.size k < 2 ^ 31) →
      (∀ p, m.get? p = if keysOf mapper pre p = [] then none
        else some (empty.addBin ((keysOf mapper pre p).flatMap kt.bytes))) →
      ∃ m', l.foldlM (fun parts key => do
          let bin ← kt.out (parts.getD (partitionId mapper key) .empty) key
          return parts.set (partitionId mapper key) bin) m = .ok m' ∧
        ∀ p, m'.get? p = if keysOf mapper (pre ++ l) p = [] then none
          else some (empty.addBin ((keysOf mapper (pre ++ l) p).flatMap kt.bytes)) := by
    intro l
    induction l with
    | nil =>
      intro pre m _ hm
      rw [append_nil]
      exact ⟨m, rfl, hm⟩
    | cons k l ih =>
      intro pre m hl hm
      obtain ⟨hv, hs⟩ := hl k mem_cons_self
      have hbin : m.getD (partitionId mapper k) .empty =
          empty.addBin ((keysOf mapper pre (partitionId mapper k)).flatMap kt.bytes) := by
        unfold OrdMap.getD
        rw [hm]
        split
        · next hnil => rw [hnil]; rfl
        · rfl
      obtain ⟨m', hrun, hm'⟩ := ih (pre ++ [k])
        (m.set (partitionId mapper k) ((m.getD (partitionId mapper k) .empty).addBin (kt.bytes k)))
        (fun x hx => hl x (mem_cons_of_mem _ hx)) fun p => by
          rw [OrdMap.get?_set, hbin, addBin_addBin]
          rw [keysOf_concat]
          by_cases hp : p = partitionId mapper k
          · subst hp
            simp
          · rw [if_neg hp, if_neg (Ne.symm hp), append_nil]
            exact hm p
      refine ⟨m', ?_, fun p => ?_⟩
      · rw [foldlM_cons, ht.write _ k hv hs]
        exact hrun
      · rw [hm' p, append_assoc]
        rfl
  obtain ⟨m, hrun, hm⟩ := hloop keys [] .empty hk fun p => rfl
  exact ⟨m, hrun, hm⟩

/-- The streams are those of the partitions that a key goes to. -/
theorem partition_entries (mapper : K → Nat) (ht : RoundTrip kt) (hk : ∀ k ∈ keys, kt.valid k ∧ kt.size k < 2 ^ 31) :
    ∃ m, partition kt mapper keys = .ok m ∧
      m.entries = m.keys.elems.map (fun p =>
        (p, SArrayBinStream.empty.addBin ((keysOf mapper keys p).flatMap kt.bytes))) ∧
      ∀ p, p ∈ m.keys.elems ↔ keysOf mapper keys p ≠ [] := by
  obtain ⟨m, hrun, hm⟩ := partition_ok mapper ht hk
  have hmem : ∀ p, p ∈ m.keys.elems ↔ keysOf mapper keys p ≠ [] := by
    intro p
    rw [← OrdSet.mem_def, m.mem_keys, hm p]
    split
    · next h => simp [h]
    · next h => simp [h]
  refine ⟨m, hrun, ?_, hmem⟩
  unfold OrdMap.entries
  rw [← filterMap_eq_map]
  refine filterMap_congr fun p hp => ?_
  rw [hm p, if_neg ((hmem p).mp hp)]
  rfl

/-! ## The getter function -/

section Getter

/-- The getter as a join: a key comes with an empty message, and is applied to the answer. -/
def getterIx (ot : BinType O) (findOrCreate : P → K → O × P) :
    Indexable K Unit (P × SArrayBinStream) BinCheck where
  findOrCreate x k _ := do
    let reply ← ot.out x.2 (findOrCreate x.1 k).1
    return ((findOrCreate x.1 k).2, reply)

def getStop : JoinStop BinCheck → GetStop
  | .bin c => .bin c
  | .part c => .bin c
  | .turns => .turns

theorem getterFunc_eq (n : Nat) (p : P) (k : K) (bin reply : SArrayBinStream) :
    getterFunc kt ot findOrCreate n p k bin reply =
      ((getJoinPartFunc kt tupleNil (getterIx ot findOrCreate) (fun o _ => o) id n (p, reply) k () bin).map
        fun r => r.1.2).mapError getStop := by
  induction n generalizing p k bin reply with
  | zero =>
    unfold getterFunc getJoinPartFunc
    split
    · rfl
    · rfl
  | succ n ih =>
    unfold getterFunc getJoinPartFunc
    split
    · rfl
    · cases hk : kt.inn bin k with
      | error e => rfl
      | ok x =>
        obtain ⟨k', bin'⟩ := x
        cases ho : ot.out reply (findOrCreate p k').1 with
        | error e => 
          simp [Except.mapError, bind, Except.bind, ho, tupleNil, getterIx, Except.map, getStop]
        | ok reply' =>
          simp only [Except.mapError, bind, Except.bind, ho, tupleNil, getterIx]
          exact ih _ _ _ _

theorem pairTypes_keys (ht : GetTypes kt ot key) : PairTypes kt tupleNil id where
  key := ht.keys
  msg := tupleNil_roundTrip
  strict := ht.strict
  sharpKey := ht.sharp
  sharpMsg := .of_fresh fun _ => trivial
  moved _ _ _ := Iff.rfl

variable {l : List K} {p : P}

/-- The objects are written one after the other. -/
theorem getJoinPartFunc2_getter (hf : Finds findOrCreate held) (ht : RoundTrip ot)
    (hl : ∀ k ∈ l, ot.valid (held p k) ∧ ot.size (held p k) < 2 ^ 31) (reply : SArrayBinStream) :
    ∃ q, getJoinPartFunc2 (getterIx ot findOrCreate) (fun o (_ : Unit) => o) (p, reply) (l.map (·, ())) =
      .ok (q, reply.addBin (l.flatMap fun k => ot.bytes (held p k))) := by
  induction l generalizing p reply with
  | nil =>
    refine ⟨p, ?_⟩
    rw [flatMap_nil, addBin_nil]
    rfl
  | cons k l ih =>
    obtain ⟨hv, hs⟩ := hl k mem_cons_self
    obtain ⟨q, hq⟩ := @ih (findOrCreate p k).2 (fun x hx => by
      rw [hf.keep]
      exact hl x (mem_cons_of_mem _ hx)) (reply.addBin (ot.bytes (held p k)))
    refine ⟨q, ?_⟩
    simp only [hf.keep, addBin_addBin] at hq
    rw [flatMap_cons, ← hq]
    show ((ot.out reply (findOrCreate p k).1 >>= _) >>= _) = _
    rw [hf.obj, ht.write reply _ hv hs]
    rfl

theorem pairBytes_keys (l : List K) : pairBytes kt tupleNil (l.map (·, ())) = l.flatMap kt.bytes := by
  unfold pairBytes
  rw [flatMap_map]
  exact flatMap_congr fun k _ => append_nil _

theorem readable_keys (hne : ∀ k ∈ l, kt.bytes k ≠ []) (hfresh : ∀ k ∈ l.dropLast, kt.fresh k) :
    Readable kt tupleNil id (l.map (·, ())) where
  reusable x hx := by
    rw [← map_dropLast] at hx
    obtain ⟨k, hk, rfl⟩ := mem_map.mp hx
    exact ⟨hfresh k hk, trivial⟩
  last x hx := by
    obtain ⟨k, hk, rfl⟩ := mem_map.mp (mem_of_getLast? hx)
    show kt.bytes k ++ [] ≠ []
    rw [append_nil]
    exact hne k hk

theorem valid_keys (hk : ∀ k ∈ l, kt.valid k ∧ kt.size k < 2 ^ 31) : ∀ x ∈ l.map (·, ()),
    (kt.valid x.1 ∧ kt.size x.1 < 2 ^ 31) ∧ tupleNil.valid x.2 ∧ tupleNil.size x.2 < 2 ^ 31 := by
  intro x hx
  obtain ⟨k, hkl, rfl⟩ := mem_map.mp hx
  exact ⟨hk k hkl, trivial, (by decide : 0 < 2 ^ 31)⟩

/-- **The getter answers all keys**, if they can be read. -/
theorem getterFunc_ok (ht : GetTypes kt ot key) (hf : Finds findOrCreate held)
    (hk : ∀ k ∈ l, kt.valid k ∧ kt.size k < 2 ^ 31)
    (ho : ∀ k ∈ l, ot.valid (held p k) ∧ ot.size (held p k) < 2 ^ 31)
    (hlen : (l.flatMap kt.bytes).length < 2 ^ 31) (hne : ∀ k ∈ l, kt.bytes k ≠ [])
    (hfresh : ∀ k ∈ l.dropLast, kt.fresh k) (hn : l.length ≤ n) :
    getterFunc kt ot findOrCreate n p kt.init (SArrayBinStream.empty.addBin (l.flatMap kt.bytes)) .empty =
      .ok (SArrayBinStream.empty.addBin (l.flatMap fun k => ot.bytes (held p k))) := by
  obtain ⟨q, hq⟩ := getJoinPartFunc2_getter hf ht.objs ho .empty
  have hun : (empty.addBin (l.flatMap kt.bytes)).unread =
    pairBytes kt tupleNil (l.map (·, ())) := (pairBytes_keys l).symm
  have hrun := @getJoinPartFunc_eq _ _ _ _ _ _ _ _ (getterIx ot findOrCreate) (fun o _ => o) _
    (pairTypes_keys ht) (fun _ _ _ _ => rfl) (valid_keys hk) (readable_keys hne hfresh) _ hlen hun
    kt.init () ht.keys.init trivial (p, .empty) n (by rwa [length_map])
  rw [hq] at hrun
  obtain ⟨bin', hrun, -⟩ := hrun
  rw [getterFunc_eq, hrun]
  rfl

/-- The answer of a partition. -/
theorem getterFunc_part (ht : GetTypes kt ot key) (hf : Finds findOrCreate held)
    (hfit : Fits kt ot key mapper held parts keys) (hne : ∀ k ∈ keys, kt.bytes k ≠ []) {i : Int}
    (hfresh : ∀ k ∈ (keysOf mapper keys i).dropLast, kt.fresh k) (hn : keys.length ≤ n) :
    getterFunc kt ot findOrCreate n (parts i) kt.init
        (SArrayBinStream.empty.addBin ((keysOf mapper keys i).flatMap kt.bytes)) .empty =
      .ok (SArrayBinStream.empty.addBin
        ((keysOf mapper keys i).flatMap fun k => ot.bytes (objOf mapper held parts k))) := by
  have hsub : ∀ k ∈ keysOf mapper keys i, k ∈ keys := fun k hk => (mem_keysOf.mp hk).1
  have hobj : ∀ k ∈ keysOf mapper keys i, objOf mapper held parts k = held (parts i) k :=
    fun k hk => objOf_of_mem hk
  refine (getterFunc_ok ht hf (fun k hk => hfit.validKey k (hsub k hk)) (fun k hk => ?_)
    (hfit.keyBytes i) (fun k hk => hne k (hsub k hk)) hfresh
    ((length_filter_le _ _).trans hn)).trans ?_
  · rw [← hobj k hk]
    exact hfit.validObj k (hsub k hk)
  · rw [flatMap_congr fun k hk => congrArg ot.bytes (hobj k hk).symm]

/-- A getter that answers has read each key into a variable that it can be read into. -/
theorem fresh_of_getterFunc (ht : GetTypes kt ot key)
    (hk : ∀ k ∈ l, kt.valid k ∧ kt.size k < 2 ^ 31) (hlen : (l.flatMap kt.bytes).length < 2 ^ 31)
    (hne : ∀ k ∈ l, kt.bytes k ≠ []) {n : Nat} {reply : SArrayBinStream}
    (hok : getterFunc kt ot findOrCreate n p kt.init (SArrayBinStream.empty.addBin (l.flatMap kt.bytes))
      .empty = .ok reply) : ∀ k ∈ l.dropLast, kt.fresh k := by
  rw [getterFunc_eq] at hok
  cases hrun : getJoinPartFunc kt tupleNil (getterIx ot findOrCreate) (fun o _ => o) id n (p, .empty)
      kt.init () (empty.addBin (l.flatMap kt.bytes)) with
  | error e =>
    rw [hrun] at hok
    cases hok
  | ok r =>
    have hlast : ∀ x ∈ (l.map (·, ())).getLast?, kt.bytes x.1 ++ tupleNil.bytes x.2 ≠ [] := by
      intro x hx
      obtain ⟨k, hkl, rfl⟩ := mem_map.mp (mem_of_getLast? hx)
      show kt.bytes k ++ [] ≠ []
      rw [append_nil]
      exact hne k hkl
    have hun : (empty.addBin (l.flatMap kt.bytes)).unread =
      pairBytes kt tupleNil (l.map (·, ())) := (pairBytes_keys l).symm
    have hall := reusable_of_ok (pairTypes_keys ht) (fun _ _ _ _ => rfl) (valid_keys hk) hlast
      hlen hun ht.keys.init trivial hrun
    intro k hkl
    refine (hall (k, ()) ?_).1
    rw [← map_dropLast]
    exact mem_map_of_mem hkl

/-- Nothing is asked. -/
theorem getterFunc_nil (n : Nat) (p : P) (k : K) (h : bin.size = 0) (reply : SArrayBinStream) :
    getterFunc kt ot findOrCreate n p k bin reply = .ok reply := by
  cases n with
  | zero => exact if_pos h
  | succ n => exact if_pos h

end Getter

/-! ## Organzie -/

theorem readObjs_nil (n : Nat) (h : bin.size = 0) : readObjs ot n bin = .ok [] := by
  cases n with
  | zero => exact if_pos h
  | succ n => exact if_pos h

/-- The objects of a list of keys, written one after the other, are read with their keys. -/
theorem readObjs_ok (ht : GetTypes kt ot key) {l : List K} {f : K → O}
    (hkey : ∀ k ∈ l, key (f k) = k) (hl : ∀ k ∈ l, ot.valid (f k) ∧ ot.size (f k) < 2 ^ 31)
    (hne : ∀ k ∈ l, ot.bytes (f k) ≠ []) (hs : bin.buffer.length < 2 ^ 31)
    (hun : bin.unread = l.flatMap fun k => ot.bytes (f k)) (hn : l.length ≤ n) :
    ∃ objs, readObjs ot n bin = .ok objs ∧ objs.map key = l ∧ ∀ o ∈ objs, ot.eqv (f (key o)) o := by
  induction l generalizing bin n with
  | nil =>
    exact ⟨[], readObjs_nil n (size_eq_zero_iff.mpr hun), rfl, fun o ho => absurd ho not_mem_nil⟩
  | cons k l ih =>
    rw [length_cons] at hn
    obtain ⟨n, rfl⟩ : ∃ m, n = m + 1 := ⟨n - 1, by omega⟩
    obtain ⟨hv, hsz⟩ := hl k mem_cons_self
    rw [flatMap_cons] at hun
    have hsize : bin.size ≠ 0 := by
      rw [Ne, size_eq_zero_iff, hun]
      intro hnil
      exact hne k mem_cons_self (append_eq_nil_iff.mp hnil).1
    obtain ⟨o, hread, heqv⟩ := ht.objs.read bin ot.init (f k) _ hv hsz ht.objs.init hs hun
    have ho : key o = k := by rw [← ht.key _ _ heqv, hkey k mem_cons_self]
    obtain ⟨objs, hrest, hmap, hall⟩ := ih (fun x hx => hkey x (mem_cons_of_mem _ hx))
      (fun x hx => hl x (mem_cons_of_mem _ hx)) (fun x hx => hne x (mem_cons_of_mem _ hx))
      (show (bin.skip (ot.bytes (f k)).length).buffer.length < 2 ^ 31 from hs)
      (unread_skip hun) (n := n) (by omega)
    refine ⟨o :: objs, ?_, by rw [map_cons, ho, hmap], forall_mem_cons.mpr ⟨?_, hall⟩⟩
    · rw [readObjs, if_neg hsize, hread]
      show (readObjs ot n _ >>= _) = _
      rw [hrest]
      rfl
    · rw [ho]
      exact heqv

/-- Answers that are all empty. -/
theorem organzie_nil (n : Nat) {rets : List SArrayBinStream} (h : ∀ bin ∈ rets, bin.size = 0) :
    organzie ot n sort rets = .ok (sort []) := by
  unfold organzie
  rw [mapM_ok rets (g := fun _ => []) fun bin hbin => readObjs_nil n (h bin hbin)]
  show Except.ok (sort (rets.map fun _ => []).flatten) = _
  rw [flatten_eq_nil_iff.mpr]
  intro l hl
  obtain ⟨-, -, rfl⟩ := mem_map.mp hl
  rfl

/-! ## One by one -/

/-- The objects of the keys, in the order of the keys. -/
theorem forall₂_iff {R : O → Prop} {l : List K} {objs : List O} :
    l.Forall₂ (fun k o => key o = k ∧ R o) objs ↔ objs.map key = l ∧ ∀ o ∈ objs, R o := by
  induction objs generalizing l with
  | nil =>
    constructor
    · intro h
      cases h
      exact ⟨rfl, fun o ho => absurd ho not_mem_nil⟩
    · rintro ⟨rfl, -⟩
      exact .nil
  | cons o objs ih =>
    constructor
    · intro h
      cases h with
      | cons hko hrest =>
        obtain ⟨rfl, ho⟩ := hko
        obtain ⟨hmap, hall⟩ := ih.mp hrest
        exact ⟨congrArg _ hmap, forall_mem_cons.mpr ⟨ho, hall⟩⟩
    · rintro ⟨rfl, hall⟩
      obtain ⟨ho, hall⟩ := forall_mem_cons.mp hall
      exact .cons ⟨rfl, ho⟩ (ih.mpr ⟨rfl, hall⟩)

/-- What the partitions answer, and what is read of it. -/
theorem get_eq [LinearOrder K] (ht : GetTypes kt ot key) (hf : Finds findOrCreate held)
    (hfit : Fits kt ot key mapper held parts keys) (h : Legible kt ot mapper held parts keys)
    (hn : keys.length ≤ n) (hsort : Sorts key sort) (harrive : ∀ l, (arrive l).Perm l) :
    ∃ objs, get kt ot mapper findOrCreate n sort parts arrive keys = .ok (sort objs) ∧
      (objs.map key).Perm keys ∧ ∀ o ∈ objs, ot.eqv (objOf mapper held parts (key o)) o := by
  obtain ⟨m, hm, hentries, hmem⟩ := partition_entries mapper ht.keys hfit.validKey
  have hsub : ∀ p, ∀ k ∈ keysOf mapper keys p, k ∈ keys := fun p k hk => (mem_keysOf.mp hk).1
  have hlen : ∀ p, (keysOf mapper keys p).length ≤ n := fun p => (length_filter_le _ _).trans hn
  have harr := harrive m.entries
  have hrets := mapM_ok (g := fun e : Int × SArrayBinStream => empty.addBin
      ((keysOf mapper keys e.1).flatMap fun k => ot.bytes (objOf mapper held parts k)))
    (f := fun e => getterFunc kt ot findOrCreate n (parts e.1) kt.init e.2 .empty)
    (arrive m.entries) fun e he => by
      have hent := harr.mem_iff.mp he
      rw [hentries] at hent
      obtain ⟨p, -, rfl⟩ := mem_map.mp hent
      exact getterFunc_part ht hf hfit h.keyBytes (h.fresh p) hn
  have hread : ∀ e : Int × SArrayBinStream, ∃ objs, readObjs ot n (empty.addBin
        ((keysOf mapper keys e.1).flatMap fun k => ot.bytes (objOf mapper held parts k))) = .ok objs ∧
      objs.map key = keysOf mapper keys e.1 ∧ ∀ o ∈ objs, ot.eqv (objOf mapper held parts (key o)) o :=
    fun e => readObjs_ok ht (fun k hk => hfit.key k (hsub _ k hk))
      (fun k hk => hfit.validObj k (hsub _ k hk)) (fun k hk => h.objBytes k (hsub _ k hk))
      (hfit.objBytes e.1) rfl (hlen e.1)
  choose read hread hkeys hall using hread
  have hmap : (((arrive m.entries).map read).flatten.map key).Perm keys := by
    rw [← flatMap_def, map_flatMap]
    rw [flatMap_congr fun e _ => hkeys e]
    refine (harr.flatMap_right _).trans ?_
    rw [hentries, flatMap_map]
    refine flatMap_filter_perm (partitionId mapper) m.keys.nodup keys fun k hk => ?_
    exact (hmem _).mpr (ne_nil_of_mem (mem_keysOf.mpr ⟨hk, rfl⟩))
  refine ⟨((arrive m.entries).map read).flatten, ?_, hmap, fun o ho => ?_⟩
  · have hcount : ((arrive m.entries).map fun e : Int × SArrayBinStream => empty.addBin
        ((keysOf mapper keys e.1).flatMap fun k => ot.bytes (objOf mapper held parts k))).length =
        m.keys.elems.length := by
      rw [length_map, harr.length_eq, hentries, length_map]
    have hsize : (sort ((arrive m.entries).map read).flatten).length = keys.length := by
      rw [(hsort _).1.length_eq, ← hmap.length_eq, length_map]
    unfold get
    rw [hm]
    refine bind_eq_ok.mpr ⟨m, rfl, bind_eq_ok.mpr ⟨_, hrets, ?_⟩⟩
    rw [check_pos hcount]
    have hobjs : ((arrive m.entries).map fun e : Int × SArrayBinStream => empty.addBin
        ((keysOf mapper keys e.1).flatMap fun k => ot.bytes (objOf mapper held parts k))).mapM
          (readObjs ot n) = .ok ((arrive m.entries).map read) := by
      rw [mapM_map]
      exact mapM_ok _ fun e _ => hread e
    show (organzie ot n sort _ >>= _) = _
    unfold organzie
    rw [hobjs]
    show (check _ _ >>= _) = _
    rw [check_pos hsize]
    rfl
  · obtain ⟨l, hl, hol⟩ := mem_flatten.mp ho
    obtain ⟨e, -, rfl⟩ := mem_map.mp hl
    exact hall e o hol

theorem answers_of_legible [LinearOrder K] (ht : GetTypes kt ot key) (hf : Finds findOrCreate held)
    (hfit : Fits kt ot key mapper held parts keys) (hsorted : keys.Pairwise (· ≤ ·))
    (h : Legible kt ot mapper held parts keys) :
    Answers kt ot key mapper findOrCreate held parts keys := by
  intro n hn sort hsort arrive harrive
  obtain ⟨objs, hget, hperm, hall⟩ := get_eq ht hf hfit h hn hsort harrive
  obtain ⟨hs, hle⟩ := hsort objs
  -- sorted lists of the same keys are equal
  have hkeys : (sort objs).map key = keys := by
    refine ((hs.map key).trans hperm).eq_of_pairwise (fun a b _ _ => le_antisymm) ?_ hsorted
    exact pairwise_map.mpr hle
  refine ⟨sort objs, hget, ?_⟩
  have hboth := forall₂_iff.mpr ⟨hkeys, fun o ho => hall o (hs.mem_iff.mp ho)⟩
  refine hboth.imp fun k o ⟨hk, ho⟩ => ⟨hk, ?_⟩
  rw [← hk]
  exact ho

/-! ## What goes wrong otherwise -/

/-- If a value writes nothing, all values read as the same one. -/
theorem eqv_of_bytes_nil {α : Type} {t : BinType α} (ht : RoundTrip t) {v w : α} (hv : t.valid v)
    (hvs : t.size v < 2 ^ 31) (hw : t.valid w) (hws : t.size w < 2 ^ 31) (hnil : t.bytes v = []) :
    ∃ u, t.eqv v u ∧ t.eqv w u := by
  have hlen : (t.bytes w).length < 2 ^ 31 := (ht.length w).trans_lt hws
  obtain ⟨u, hu, hvu⟩ := ht.read (.copyFrom (t.bytes w)) t.init v (t.bytes w) hv hvs ht.init hlen
    (by rw [hnil]; rfl)
  obtain ⟨u', hu', hwu⟩ := ht.read (.copyFrom (t.bytes w)) t.init w [] hw hws ht.init hlen
    (append_nil _).symm
  have heq := congrArg Prod.fst (Except.ok.inj (hu.symm.trans hu'))
  exact ⟨u, hvu, (show u = u' from heq) ▸ hwu⟩

/-- Answers that hold nothing do not pass the last check. -/
theorem keys_eq_nil_of_get [LinearOrder K] {n : Nat} {sort : List O → List O} (hsort : Sorts key sort)
    {m : OrdMap Int SArrayBinStream} (hm : partition kt mapper keys = .ok m)
    {arrive : List (Int × SArrayBinStream) → List (Int × SArrayBinStream)} {objs : List O}
    (hget : get kt ot mapper findOrCreate n sort parts arrive keys = .ok objs)
    (hnil : ∀ e ∈ arrive m.entries,
      getterFunc kt ot findOrCreate n (parts e.1) kt.init e.2 .empty = .ok .empty) : keys = [] := by
  unfold get at hget
  rw [hm] at hget
  obtain ⟨_, hpart, hget⟩ := bind_eq_ok.mp hget
  cases hpart
  obtain ⟨rets, hrets, hget⟩ := bind_eq_ok.mp hget
  obtain ⟨_, -, hget⟩ := bind_eq_ok.mp hget
  obtain ⟨l, hl, hget⟩ := bind_eq_ok.mp hget
  obtain ⟨_, hcount, -⟩ := bind_eq_ok.mp hget
  rw [check_eq_ok] at hcount
  have hempty := Except.ok.inj (hrets.symm.trans
    (mapM_ok (g := fun _ => empty) (arrive m.entries) hnil))
  rw [organzie_nil n fun bin hbin => by
    rw [hempty] at hbin
    obtain ⟨-, -, rfl⟩ := mem_map.mp hbin
    rfl] at hl
  rw [← Except.ok.inj hl, (hsort []).1.length_eq] at hcount
  exact length_eq_zero_iff.mp hcount.symm

theorem exists_of_mapM_ok {α β ε : Type} {f : α → Except ε β} {l : List α} {bs : List β}
    (h : l.mapM f = .ok bs) : ∀ a ∈ l, ∃ b, f a = .ok b := by
  induction l generalizing bs with
  | nil => exact fun a ha => absurd ha not_mem_nil
  | cons a l ih =>
    rw [mapM_cons] at h
    obtain ⟨b, hb, h⟩ := bind_eq_ok.mp h
    obtain ⟨bs', hbs, -⟩ := bind_eq_ok.mp h
    exact forall_mem_cons.mpr ⟨⟨b, hb⟩, ih hbs⟩

/-- A sort there is. -/
theorem sorts_mergeSort [LinearOrder K] (key : O → K) :
    Sorts key fun l => l.mergeSort fun a b => key a ≤ key b := by
  intro l
  refine ⟨mergeSort_perm l _, ?_⟩
  have hle := @pairwise_mergeSort O (fun a b => decide (key a ≤ key b))
    (fun a b c hab hbc => decide_eq_true (le_trans (of_decide_eq_true hab) (of_decide_eq_true hbc)))
    (fun a b => by simpa using le_total (key a) (key b)) l
  exact hle.imp of_decide_eq_true

theorem legible_of_answers [LinearOrder K] (ht : GetTypes kt ot key) (hf : Finds findOrCreate held)
    (hfit : Fits kt ot key mapper held parts keys)
    (h : Answers kt ot key mapper findOrCreate held parts keys) :
    Legible kt ot mapper held parts keys := by
  obtain ⟨m, hm, hentries, hmem⟩ := partition_entries mapper ht.keys hfit.validKey
  obtain ⟨objs, hget, -⟩ := h keys.length (Nat.le_refl _) _ (sorts_mergeSort key) id fun _ => .refl _
  have hsub : ∀ p, ∀ k ∈ keysOf mapper keys p, k ∈ keys := fun p k hk => (mem_keysOf.mp hk).1
  have hkeyBytes : ∀ k ∈ keys, kt.bytes k ≠ [] := by
    intro k hk hnil
    -- all keys are this one
    have hsame : ∀ k' ∈ keys, kt.bytes k' = [] := by
      intro k' hk'
      obtain ⟨u, hu, hu'⟩ := eqv_of_bytes_nil ht.keys (hfit.validKey k hk).1 (hfit.validKey k hk).2
        (hfit.validKey k' hk').1 (hfit.validKey k' hk').2 hnil
      rw [ht.strict _ _ hu', ← ht.strict _ _ hu]
      exact hnil
    have hkeys := keys_eq_nil_of_get (sorts_mergeSort key) hm hget fun e he => by
      rw [id, hentries] at he
      obtain ⟨p, -, rfl⟩ := mem_map.mp he
      refine getterFunc_nil _ _ _ (size_eq_zero_iff.mpr ?_) _
      exact flatMap_eq_nil_iff.mpr fun k' hk' => hsame k' (hsub p k' hk')
    rw [hkeys] at hk
    exact absurd hk not_mem_nil
  have hfresh : ∀ p, ∀ k ∈ (keysOf mapper keys p).dropLast, kt.fresh k := by
    intro p k hk
    have hp : keysOf mapper keys p ≠ [] := ne_nil_of_mem ((dropLast_sublist _).subset hk)
    obtain ⟨reply, hreply⟩ : ∃ reply, getterFunc kt ot findOrCreate keys.length (parts p) kt.init
        (empty.addBin ((keysOf mapper keys p).flatMap kt.bytes)) .empty = .ok reply := by
      unfold get at hget
      rw [hm] at hget
      obtain ⟨_, hpart, hrun⟩ := bind_eq_ok.mp hget
      cases hpart
      obtain ⟨rets, hrets, -⟩ := bind_eq_ok.mp hrun
      refine exists_of_mapM_ok hrets (p, _) ?_
      rw [id, hentries]
      exact mem_map.mpr ⟨p, (hmem p).mpr hp, rfl⟩
    exact fresh_of_getterFunc ht (fun k' hk' => hfit.validKey k' (hsub p k' hk')) (hfit.keyBytes p)
      (fun k' hk' => hkeyBytes k' (hsub p k' hk')) hreply k hk
  refine ⟨hkeyBytes, fun k hk hnil => ?_, hfresh⟩
  have hsame : ∀ k' ∈ keys, ot.bytes (objOf mapper held parts k') = [] := by
    intro k' hk'
    obtain ⟨u, hu, hu'⟩ := eqv_of_bytes_nil ht.objs (hfit.validObj k hk).1 (hfit.validObj k hk).2
      (hfit.validObj k' hk').1 (hfit.validObj k' hk').2 hnil
    have hkk : k' = k := by
      rw [← hfit.key k hk, ← hfit.key k' hk', ht.key _ _ hu, ht.key _ _ hu']
    rw [hkk]
    exact hnil
  have hkeys := keys_eq_nil_of_get (sorts_mergeSort key) hm hget fun e he => by
    rw [id, hentries] at he
    obtain ⟨p, -, rfl⟩ := mem_map.mp he
    refine (getterFunc_part ht hf hfit hkeyBytes (hfresh p) (Nat.le_refl _)).trans ?_
    rw [flatMap_eq_nil_iff.mpr fun k' hk' => hsame k' (hsub p k' hk')]
    rfl
  rw [hkeys] at hk
  exact absurd hk not_mem_nil

/-! ## The vector of a call -/

end TypedCache

/-! ## Partitions with an index -/

namespace TypedCache

variable [LinearOrder K] (T : ObjType K O)

/-- A partition that was never sorted, whose objects have the keys they are found by. -/
structure Shelf where
  part : IndexedSeqPartition K O
  unsorted : part.Unsorted
  keyed : ∀ k i, part.unsorted k = some i → ∃ o, part.storage[i]? = some o ∧ T.key o = k

namespace Shelf

variable {T} (x : Shelf T)

def empty : Shelf T := ⟨.empty, IndexedSeqPartition.unsorted_empty, fun _ _ h => by cases h⟩

theorem findOrCreate_cases (k : K) :
    (∃ i, x.part.unsorted k = some i ∧ x.part.findOrCreate T k = (i, x.part)) ∨
    x.part.unsorted k = none ∧
      x.part.findOrCreate T k = (x.part.storage.length, x.part.typedAdd T (T.create k)) := by
  unfold IndexedSeqPartition.findOrCreate
  rw [x.unsorted.find]
  cases h : x.part.unsorted k with
  | some i => exact .inl ⟨i, rfl, rfl⟩
  | none => exact .inr ⟨rfl, rfl⟩

theorem keyed_typedAdd (k : K) : ∀ k' i,
    (x.part.typedAdd T (T.create k)).unsorted k' = some i →
      ∃ o, (x.part.typedAdd T (T.create k)).storage[i]? = some o ∧ T.key o = k' := by
  intro k' i h
  by_cases hk : k' = T.key (T.create k)
  · have hi : Function.update x.part.unsorted (T.key (T.create k)) (some x.part.storage.length) k' =
      some i := h
    rw [hk, Function.update_self] at hi
    obtain rfl := Option.some.inj hi
    exact ⟨T.create k, by simp [IndexedSeqPartition.typedAdd], hk.symm⟩
  · obtain ⟨o, ho, hkey⟩ := x.keyed k' i ((Function.update_of_ne hk _ _).symm.trans h)
    exact ⟨o, List.getElem?_append_left (List.getElem?_eq_some_iff.mp ho).1 ▸ ho, hkey⟩

/-- `*p->FindOrCreate(key)`. -/
def findOrCreate (x : Shelf T) (k : K) : O × Shelf T :=
  let q := x.part.findOrCreate T k
  ((q.2.storage[q.1]?).getD (T.create k), {
    part := q.2
    unsorted := by
      rcases x.findOrCreate_cases k with ⟨i, -, hq⟩ | ⟨hnone, hq⟩
      · rw [show q = _ from hq]
        exact x.unsorted
      · rw [show q = _ from hq]
        exact x.unsorted.typedAdd (by rw [T.key_create]; exact hnone)
    keyed := by
      rcases x.findOrCreate_cases k with ⟨i, -, hq⟩ | ⟨-, hq⟩
      · rw [show q = _ from hq]
        exact x.keyed
      · rw [show q = _ from hq]
        exact x.keyed_typedAdd k })

/-- The object of a key; a new one, if there is none. -/
def held (x : Shelf T) (k : K) : O := (x.part.get? T k).getD (T.create k)

theorem finds : Finds (findOrCreate (T := T)) held where
  obj x k := by
    show ((x.part.findOrCreate T k).2.storage[(x.part.findOrCreate T k).1]?).getD _ = _
    unfold held IndexedSeqPartition.get?
    rw [x.unsorted.find]
    rcases x.findOrCreate_cases k with ⟨i, hi, hq⟩ | ⟨hnone, hq⟩
    · rw [hq, hi]
      rfl
    · rw [hq, hnone]
      simp [IndexedSeqPartition.typedAdd]
  keep x k k' := by
    show ((x.part.findOrCreate T k).2.get? T k').getD _ = (x.part.get? T k').getD _
    rcases x.findOrCreate_cases k with ⟨i, hi, hq⟩ | ⟨hnone, hq⟩
    · rw [hq]
    · rw [hq, x.unsorted.get?_typedAdd, T.key_create]
      by_cases hk : k' = k
      · rw [if_pos hk, hk, IndexedSeqPartition.get?, x.unsorted.find, hnone]
        rfl
      · rw [if_neg hk]

theorem key_held (k : K) : T.key (x.held k) = k := by
  unfold held IndexedSeqPartition.get?
  rw [x.unsorted.find]
  cases h : x.part.unsorted k with
  | none => exact T.key_create k
  | some i =>
    obtain ⟨o, ho, hkey⟩ := x.keyed k i h
    show T.key ((x.part.storage[i]?).getD _) = k
    rw [ho]
    exact hkey

end Shelf

end TypedCache

open TypedCache in
/-- **`Get` answers key by key** if and only if keys and objects are legible. -/
theorem get_answers_iff [LinearOrder K] {kt : BinType K} {ot : BinType O} {key : O → K} {mapper : K → Nat}
    {findOrCreate : P → K → O × P} {held : P → K → O} {parts : Int → P} {keys : List K}
    (ht : GetTypes kt ot key) (hf : Finds findOrCreate held)
    (hfit : Fits kt ot key mapper held parts keys) (hsorted : keys.Pairwise (· ≤ ·)) :
    Answers kt ot key mapper findOrCreate held parts keys ↔ Legible kt ot mapper held parts keys :=
  ⟨legible_of_answers ht hf hfit, answers_of_legible ht hf hfit hsorted⟩

namespace TypedCache

/-- Bounds for all keys are bounds for those of a partition. -/
theorem length_keysOf_flatMap (mapper : K → Nat) (keys : List K) (f : K → List UInt8) (p : Int)
    (h : (keys.flatMap f).length < 2 ^ 31) : ((keysOf mapper keys p).flatMap f).length < 2 ^ 31 :=
  (List.Sublist.length_le (filter_sublist.flatMap f)).trans_lt h

/-- Counters by `int` keys, in two partitions. -/
theorem getTypes_counters : GetTypes int (int.pair sizeT) (Prod.fst : Int × Nat → Int) where
  keys := exact_int.roundTrip
  strict := exact_int.strict
  sharp := .of_fresh exact_int.fresh
  objs := pair_roundTrip exact_int.roundTrip (triv_roundTrip _)
  key _ _ h := h.1

/-- The remainder by two. -/
def twoParts (k : Int) : Nat := (k % 2).toNat

theorem objOf_counters (k : Int) :
    objOf twoParts Shelf.held (fun _ => (Shelf.empty : Shelf (tally : ObjType Int (Int × Nat)))) k = (k, 0) := rfl

theorem fits_counters : Fits int (int.pair sizeT) Prod.fst twoParts Shelf.held
    (fun _ => (Shelf.empty : Shelf (tally : ObjType Int (Int × Nat)))) [1, 2, 2, 3] where
  key k _ := Shelf.key_held (Shelf.empty : Shelf (tally : ObjType Int (Int × Nat))) k
  validKey k hk := by
    have hall : ∀ k ∈ ([1, 2, 2, 3] : List Int), -2 ^ 31 ≤ k ∧ k < 2 ^ 31 := by decide
    exact ⟨hall k hk, (by decide : 4 < 2 ^ 31)⟩
  validObj k hk := by
    have hall : ∀ k ∈ ([1, 2, 2, 3] : List Int), -2 ^ 31 ≤ k ∧ k < 2 ^ 31 := by decide
    exact ⟨⟨hall k hk, (by decide : 0 < 2 ^ 64)⟩, (by decide : 12 < 2 ^ 31)⟩
  keyBytes p := length_keysOf_flatMap _ _ _ p (by decide)
  objBytes p := length_keysOf_flatMap _ _ _ p (by decide)

end TypedCache

open TypedCache in
theorem get_answers_counters : Answers int (int.pair sizeT) Prod.fst twoParts Shelf.findOrCreate Shelf.held
    (fun _ => (Shelf.empty : Shelf (tally : ObjType Int (Int × Nat)))) [1, 2, 2, 3] := by
  refine (get_answers_iff getTypes_counters Shelf.finds fits_counters (by decide)).mpr ⟨?_, ?_, ?_⟩
  · decide
  · intro k hk
    rw [objOf_counters]
    revert k
    decide
  · exact fun p k _ => trivial

open TypedCache in
/-- Objects that write nothing round-trip, and all have key 0.  The object for this key is not
read, and the last check of `Get` fails. -/
theorem get_markers_stops :
    GetTypes int tupleNil (fun _ => 0) ∧ Finds (fun (p : Unit) (_ : Int) => ((), p)) (fun _ _ => ()) ∧
    Fits int tupleNil (fun _ => 0) twoParts (fun (_ : Unit) _ => ()) (fun _ => ()) [0] ∧
    get int tupleNil twoParts (fun (p : Unit) _ => ((), p)) 1 id (fun _ => ()) id [0] =
      .error .objs := by
  refine ⟨⟨exact_int.roundTrip, exact_int.strict, .of_fresh exact_int.fresh, tupleNil_roundTrip,
    fun _ _ _ => rfl⟩, ⟨fun _ _ => rfl, fun _ _ _ => rfl⟩, ⟨?_, ?_, ?_, ?_, ?_⟩, ?_⟩
  · intro k hk
    exact (mem_singleton.mp hk).symm
  · intro k hk
    rw [mem_singleton.mp hk]
    exact ⟨(by decide : (-2 ^ 31 : Int) ≤ 0 ∧ (0 : Int) < 2 ^ 31), (by decide : 4 < 2 ^ 31)⟩
  · exact fun k _ => ⟨trivial, (by decide : 0 < 2 ^ 31)⟩
  · exact fun p => length_keysOf_flatMap _ _ _ p (by decide)
  · exact fun p => length_keysOf_flatMap _ _ _ p (by decide)
  · decide +kernel

end Tangram
