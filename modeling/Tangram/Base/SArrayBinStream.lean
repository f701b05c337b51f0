import Tangram.Lib.Bytes
import Tangram.Lib.Run

/-!
# Binary streams

`SArrayBinStream` and its `operator<<` / `operator>>` family
(`base/sarray_binstream.hpp`, `.cpp`).  A stream is a buffer with a read position.
`size_t` sums are taken modulo `2 ^ 64`, the index of `buffer_[front_]` is an `int`,
and a read that leaves the buffer is an error of its own, as is a loop counter of
type `int` that overflows.

A `BinType` is a C++ type as the streams see it: the two operators, as the source
has them, and what its values are.  `RoundTrip` says that the operators fit:
`operator<<` appends `bytes v`, and from these `operator>>` reads a value that counts
as equal to `v` and nothing more.  It is proved for each container from its elements,
and for a struct from the two lists of its fields.
-/

namespace Tangram

open StepRun Bytes List

inductive BinCheck
  | popBin | nested | specType
  | memory
  | overflow
deriving DecidableEq, Repr

/-! ## Streams -/

@[ext] structure SArrayBinStream where
  buffer : List UInt8
  front : Nat
  le : front ≤ buffer.length
deriving DecidableEq

namespace SArrayBinStream

def empty : SArrayBinStream := ⟨[], 0, Nat.le_refl 0⟩

def size (s : SArrayBinStream) : Nat := s.buffer.length - s.front

def addBin (s : SArrayBinStream) (bin : List UInt8) : SArrayBinStream :=
  ⟨s.buffer ++ bin, s.front, by rw [List.length_append]; exact Nat.le_add_right_of_le s.le⟩

/-- A `size_t` as the `int` that `SArray::operator[]` takes. -/
def index (n : Nat) : Int := (n : Int).bmod (2 ^ 32)

/-- The pointer, as an offset in the buffer, and the stream after it. -/
def popBin (s : SArrayBinStream) (sz : Nat) : Except BinCheck (Int × SArrayBinStream) :=
  if h : (s.front + sz) % 2 ^ 64 ≤ s.buffer.length then
    .ok (index s.front, ⟨s.buffer, (s.front + sz) % 2 ^ 64, h⟩)
  else .error .popBin

/-- The `sz` bytes a pointer into the buffer points to. -/
def read (s : SArrayBinStream) (ptr : Int) (sz : Nat) : Except BinCheck (List UInt8) :=
  if 0 ≤ ptr ∧ ptr + sz ≤ s.buffer.length then .ok ((s.buffer.drop ptr.toNat).take sz)
  else .error .memory

/-- `GetPtr`. -/
def getPtr (s : SArrayBinStream) : Int := s.front

def copyFrom (bin : List UInt8) : SArrayBinStream := ⟨bin, 0, Nat.zero_le _⟩

/-- What there is to read. -/
def unread (s : SArrayBinStream) : List UInt8 := s.buffer.drop s.front

/-- The stream `n` bytes further on. -/
def skip (s : SArrayBinStream) (n : Nat) : SArrayBinStream :=
  ⟨s.buffer, min (s.front + n) s.buffer.length, Nat.min_le_right _ _⟩

variable {s : SArrayBinStream} {b rest : List UInt8}

theorem length_unread (s : SArrayBinStream) : s.unread.length = s.size := length_drop

theorem skip_zero (s : SArrayBinStream) : s.skip 0 = s :=
  SArrayBinStream.ext rfl (Nat.min_eq_left s.le)

theorem skip_skip (s : SArrayBinStream) (m n : Nat) : (s.skip m).skip n = s.skip (m + n) := by
  refine SArrayBinStream.ext rfl ?_
  have := s.le
  show min (min (s.front + m) s.buffer.length + n) s.buffer.length =
    min (s.front + (m + n)) s.buffer.length
  omega

theorem le_of_unread (h : s.unread = b ++ rest) : s.front + b.length ≤ s.buffer.length := by
  have := length_unread s
  rw [h, length_append, size] at this
  have := s.le
  omega

theorem unread_skip (h : s.unread = b ++ rest) : (s.skip b.length).unread = rest := by
  have hlen := le_of_unread h
  show s.buffer.drop (min (s.front + b.length) s.buffer.length) = rest
  rw [Nat.min_eq_left hlen, ← drop_drop]
  show (s.unread).drop b.length = rest
  rw [h, drop_left]

theorem addBin_addBin (s : SArrayBinStream) (b b' : List UInt8) :
    (s.addBin b).addBin b' = s.addBin (b ++ b') :=
  SArrayBinStream.ext (append_assoc _ _ _) rfl

theorem addBin_nil (s : SArrayBinStream) : s.addBin [] = s :=
  SArrayBinStream.ext (append_nil _) rfl

/-- What is there can be popped, and the pointer points to it, where `int` has the position. -/
theorem popBin_ok (h : s.unread = b ++ rest) (hs : s.buffer.length < 2 ^ 64) (hf : s.front < 2 ^ 31) :
    s.popBin b.length = .ok (s.getPtr, s.skip b.length) ∧
      ∀ t : SArrayBinStream, t.buffer = s.buffer → t.read s.getPtr b.length = .ok b := by
  have hlen := le_of_unread h
  have hmod : (s.front + b.length) % 2 ^ 64 = s.front + b.length := Nat.mod_eq_of_lt (by omega)
  have hidx : index s.front = s.getPtr := Int.bmod_eq_of_le_mul_two (by omega) (by omega)
  constructor
  · refine (dif_pos (hmod.trans_le hlen)).trans ?_
    rw [hidx]
    refine congrArg Except.ok (Prod.ext rfl (SArrayBinStream.ext rfl ?_))
    exact hmod.trans (Nat.min_eq_left hlen).symm
  · intro t ht
    have hin : (0 : Int) ≤ s.getPtr ∧ s.getPtr + b.length ≤ t.buffer.length := by
      rw [ht]
      unfold getPtr
      omega
    refine (if_pos hin).trans (congrArg Except.ok ?_)
    rw [ht]
    exact (congrArg (List.take b.length) h).trans take_left

end SArrayBinStream

/-! ## Types -/

/-- A type with its operators.  `inn` reads into an old value; `init` is `T()`.  The rest says
what the values are (`valid`), which of them can be read into (`fresh`), which count as equal,
what is written for one, and how large that is, where an element of a container counts for at
least one. -/
structure BinType (α : Type) where
  out : SArrayBinStream → α → Except BinCheck SArrayBinStream
  inn : SArrayBinStream → α → Except BinCheck (α × SArrayBinStream)
  init : α
  valid : α → Prop
  fresh : α → Prop
  eqv : α → α → Prop
  bytes : α → List UInt8
  size : α → Nat

namespace BinType

variable {α β γ : Type}

structure RoundTrip (t : BinType α) : Prop where
  init : t.fresh t.init
  length : ∀ v, (t.bytes v).length ≤ t.size v
  write : ∀ s v, t.valid v → t.size v < 2 ^ 31 → t.out s v = .ok (s.addBin (t.bytes v))
  read : ∀ s old v rest, t.valid v → t.size v < 2 ^ 31 → t.fresh old → s.buffer.length < 2 ^ 31 →
    s.unread = t.bytes v ++ rest →
    ∃ v', t.inn s old = .ok (v', s.skip (t.bytes v).length) ∧ t.eqv v v'

/-! ### Trivially copyable types -/

end BinType

/-- The object representation of a trivially copyable type. -/
structure TriviallyCopyable (α : Type) where
  size : Nat
  toBytes : α → List UInt8
  ofBytes : List UInt8 → α
  init : α
  valid : α → Prop
  pos : 0 < size
  length_toBytes : ∀ a, (toBytes a).length = size
  ofBytes_toBytes : ∀ a, valid a → ofBytes (toBytes a) = a

namespace TriviallyCopyable

def int : TriviallyCopyable Int where
  size := 4
  toBytes x := leBytes 4 (x % (256 ^ 4 : Nat)).toNat
  ofBytes b := (ofLe b : Int).bmod (256 ^ 4)
  init := 0
  valid x := -2 ^ 31 ≤ x ∧ x < 2 ^ 31
  pos := by decide
  length_toBytes _ := length_leBytes _ _
  ofBytes_toBytes x hx := by
    obtain ⟨hlo, hhi⟩ := hx
    exact bmod_ofLe_leBytes (by omega) (by omega)

def sizeT : TriviallyCopyable Nat where
  size := 8
  toBytes n := leBytes 8 n
  ofBytes := ofLe
  init := 0
  valid n := n < 2 ^ 64
  pos := by decide
  length_toBytes _ := length_leBytes _ _
  ofBytes_toBytes n hn := ofLe_leBytes_of_lt (by omega)

def char : TriviallyCopyable UInt8 where
  size := 1
  toBytes c := [c]
  ofBytes b := b.getD 0 0
  init := 0
  valid _ := True
  pos := by decide
  length_toBytes _ := rfl
  ofBytes_toBytes _ _ := rfl

def bool : TriviallyCopyable Bool where
  size := 1
  toBytes b := [if b then 1 else 0]
  ofBytes b := b.getD 0 0 != 0
  init := false
  valid _ := True
  pos := by decide
  length_toBytes _ := rfl
  ofBytes_toBytes b _ := by cases b <;> rfl

end TriviallyCopyable

namespace BinType

variable {α β γ : Type} {lt : α → α → Bool} {s : SArrayBinStream} {t k : BinType α} {v : BinType β}
  (T : TriviallyCopyable α) {eqv : α → α → Prop}

def triv (T : TriviallyCopyable α) : BinType α where
  out s v := .ok (s.addBin (T.toBytes v))
  inn s _ := do
    let (ptr, s) ← s.popBin T.size
    let b ← s.read ptr T.size
    return (T.ofBytes b, s)
  init := T.init
  valid := T.valid
  fresh _ := True
  eqv := Eq
  bytes := T.toBytes
  size _ := T.size

theorem triv_inn (old : α) {v : α} {rest : List UInt8} (hv : T.valid v)
    (hs : s.buffer.length < 2 ^ 64) (hf : s.front < 2 ^ 31) (h : s.unread = T.toBytes v ++ rest) :
    (triv T).inn s old = .ok (v, s.skip T.size) := by
  obtain ⟨hpop, hread⟩ := SArrayBinStream.popBin_ok h hs hf
  rw [T.length_toBytes] at hpop hread
  show (s.popBin T.size >>= _) = _
  rw [hpop]
  show ((s.skip T.size).read s.getPtr T.size >>= _) = _
  rw [hread (s.skip T.size) rfl]
  show Except.ok (T.ofBytes (T.toBytes v), _) = _
  rw [T.ofBytes_toBytes v hv]

theorem triv_roundTrip : RoundTrip (triv T) where
  init := trivial
  length v := Nat.le_of_eq (T.length_toBytes v)
  write _ _ _ _ := rfl
  read s old v rest hv _ _ hs h := by
    refine ⟨v, ?_, rfl⟩
    rw [triv_inn T old hv (by omega) (Nat.lt_of_le_of_lt s.le hs) h]
    show _ = Except.ok (v, s.skip (T.toBytes v).length)
    rw [T.length_toBytes]

abbrev int : BinType Int := triv .int

abbrev sizeT : BinType Nat := triv .sizeT

abbrev bool : BinType Bool := triv .bool

abbrev char : BinType UInt8 := triv .char

/-! ### Loops -/

/-- `for (auto& elem : v) stream << elem`. -/
def outRange (t : BinType α) (l : List α) (s : SArrayBinStream) : Except BinCheck SArrayBinStream :=
  l.foldlM t.out s

/-- `for (int i = 0; i < v.size(); ++i) stream << v[i]`; `i` is counted up after the body. -/
def outInt (t : BinType α) : Nat → List α → SArrayBinStream → Except BinCheck SArrayBinStream
  | _, [], s => .ok s
  | i, x :: l, s => do
    let s ← t.out s x
    check .overflow (i + 1 < 2 ^ 31)
    outInt t (i + 1) l s

/-- `n` times `T elem; stream >> elem;` and what is done with it. -/
def inRange (t : BinType α) (insert : γ → α → γ) :
    Nat → γ × SArrayBinStream → Except BinCheck (γ × SArrayBinStream)
  | 0, x => .ok x
  | n + 1, (c, s) => do
    let (elem, s) ← t.inn s t.init
    inRange t insert n (insert c elem, s)

/-- The same with `for (int i = 0; i < len; i++)`, where `n` turns are left. -/
def inInt (t : BinType α) (insert : γ → α → γ) :
    Nat → Nat → γ × SArrayBinStream → Except BinCheck (γ × SArrayBinStream)
  | _, 0, x => .ok x
  | i, n + 1, (c, s) => do
    let (elem, s) ← t.inn s t.init
    check .overflow (i + 1 < 2 ^ 31)
    inInt t insert (i + 1) n (insert c elem, s)

section Loops

variable {t : BinType α}

theorem outRange_eq {l : List α} (hout : ∀ x ∈ l, ∀ s, t.out s x = .ok (s.addBin (t.bytes x)))
    (s : SArrayBinStream) : outRange t l s = .ok (s.addBin (l.flatMap t.bytes)) := by
  induction l generalizing s with
  | nil => exact congrArg Except.ok (SArrayBinStream.addBin_nil s).symm
  | cons x l ih =>
    show (t.out s x >>= fun s => outRange t l s) = _
    rw [hout x mem_cons_self, flatMap_cons, ← SArrayBinStream.addBin_addBin]
    exact ih (fun y hy => hout y (mem_cons_of_mem _ hy)) _

theorem outRange_ok (ht : RoundTrip t) (l : List α) (s : SArrayBinStream)
    (hl : ∀ x ∈ l, t.valid x ∧ t.size x < 2 ^ 31) :
    outRange t l s = .ok (s.addBin (l.flatMap t.bytes)) :=
  outRange_eq (fun x hx s => ht.write s x (hl x hx).1 (hl x hx).2) s

/-- While the index is an `int` the two loops do the same. -/
theorem outInt_eq {l : List α} {i : Nat} (s : SArrayBinStream) (hi : i + l.length < 2 ^ 31) :
    outInt t i l s = outRange t l s := by
  induction l generalizing i s with
  | nil => rfl
  | cons x l ih =>
    rw [length_cons] at hi
    rw [outInt, check_pos (by omega)]
    exact congrArg (t.out s x >>= ·) (funext fun s => ih s (by omega))

theorem inInt_eq (insert : γ → α → γ) {n i : Nat} (x : γ × SArrayBinStream) (hi : i + n < 2 ^ 31) :
    inInt t insert i n x = inRange t insert n x := by
  induction n generalizing i x with
  | zero => rfl
  | succ n ih =>
    rw [inInt, check_pos (by omega)]
    exact congrArg (t.inn x.2 t.init >>= ·) (funext fun y => ih _ (by omega))

/-- One element is read and the others follow. -/
theorem read_cons (ht : RoundTrip t) {x : α} {l : List α} {rest : List UInt8}
    (hx : t.valid x ∧ t.size x < 2 ^ 31) (hs : s.buffer.length < 2 ^ 31)
    (hu : s.unread = (x :: l).flatMap t.bytes ++ rest) :
    ∃ x', t.inn s t.init = .ok (x', s.skip (t.bytes x).length) ∧ t.eqv x x' ∧
      (s.skip (t.bytes x).length).unread = l.flatMap t.bytes ++ rest := by
  rw [flatMap_cons, append_assoc] at hu
  obtain ⟨x', hread, heqv⟩ := ht.read s t.init x _ hx.1 hx.2 ht.init hs hu
  exact ⟨x', hread, heqv, SArrayBinStream.unread_skip hu⟩

theorem inRange_ok (ht : RoundTrip t) (insert : γ → α → γ) (l : List α) (c : γ)
    (s : SArrayBinStream) (rest : List UInt8) (hl : ∀ x ∈ l, t.valid x ∧ t.size x < 2 ^ 31)
    (hs : s.buffer.length < 2 ^ 31) (hu : s.unread = l.flatMap t.bytes ++ rest) :
    ∃ l', inRange t insert l.length (c, s) =
        .ok (l'.foldl insert c, s.skip (l.flatMap t.bytes).length) ∧ l.Forall₂ t.eqv l' := by
  induction l generalizing c s with
  | nil =>
    refine ⟨[], ?_, .nil⟩
    show Except.ok (c, s) = Except.ok (c, s.skip 0)
    rw [SArrayBinStream.skip_zero]
  | cons x l ih =>
    obtain ⟨x', hread, heqv, hu'⟩ := read_cons ht (hl x mem_cons_self) hs hu
    obtain ⟨l', hl', hall⟩ := ih (insert c x') (s.skip (t.bytes x).length)
      (fun y hy => hl y (mem_cons_of_mem _ hy)) hs hu'
    refine ⟨x' :: l', ?_, .cons heqv hall⟩
    rw [length_cons, inRange, hread, flatMap_cons, length_append,
      ← SArrayBinStream.skip_skip]
    exact hl'

end Loops

/-! ### Strings and containers -/

/-- Every element counts for at least one. -/
def sizeAll (t : BinType α) (l : List α) : Nat := (l.map fun x => max 1 (t.size x)).sum

theorem length_le_sizeAll (t : BinType α) (l : List α) : l.length ≤ t.sizeAll l := by
  induction l with
  | nil => exact Nat.le_refl 0
  | cons x l ih =>
    rw [length_cons, sizeAll, map_cons, sum_cons]
    unfold sizeAll at ih
    omega

theorem size_le_sizeAll (t : BinType α) {l : List α} {x : α} (h : x ∈ l) :
    t.size x ≤ t.sizeAll l := by
  induction l with
  | nil => exact absurd h not_mem_nil
  | cons y l ih =>
    rw [sizeAll, map_cons, sum_cons]
    unfold sizeAll at ih
    rcases mem_cons.mp h with rfl | h
    · omega
    · have := ih h
      omega

theorem length_flatMap_le (ht : RoundTrip t) (l : List α) :
    (l.flatMap t.bytes).length ≤ t.sizeAll l := by
  induction l with
  | nil => exact Nat.le_refl 0
  | cons x l ih =>
    have := ht.length x
    rw [flatMap_cons, length_append, sizeAll, map_cons, sum_cons]
    unfold sizeAll at ih
    omega

/-- A `std::string` of any character type. -/
def string (T : TriviallyCopyable α) : BinType (List α) where
  out s v := do
    let s ← sizeT.out s v.length
    outRange (triv T) v s
  inn s _ := do
    let (len, s) ← sizeT.inn s 0
    -- `v` is resized to `len` characters, each of which is read
    inRange (triv T) (fun v c => v ++ [c]) len ([], s)
  init := []
  valid v := ∀ c ∈ v, T.valid c
  fresh _ := True
  eqv := Eq
  bytes v := leBytes 8 v.length ++ v.flatMap T.toBytes
  size v := 8 + sizeAll (triv T) v

/-- What the containers share.  `loop` writes the elements, `insert` takes one in, `inv` is what
the container keeps of its elements, and `eqv` its equality. -/
def container (t : BinType α) (loop : List α → SArrayBinStream → Except BinCheck SArrayBinStream)
    (insert : List α → α → List α) (inv : List α → Prop) (eqv : List α → List α → Prop) :
    BinType (List α) where
  out s v := do
    let s ← sizeT.out s v.length
    loop v s
  inn s _ := do
    let (len, s) ← sizeT.inn s 0
    inInt t insert 0 len ([], s)
  init := []
  valid v := inv v ∧ ∀ x ∈ v, t.valid x
  fresh _ := True
  eqv := eqv
  bytes v := leBytes 8 v.length ++ v.flatMap t.bytes
  size v := 8 + t.sizeAll v

/-- The vector is resized to its length, and element `i` is read into place `i`. -/
def vector (t : BinType α) : BinType (List α) :=
  container t (outInt t 0) (fun v x => v ++ [x]) (fun _ => True) (List.Forall₂ t.eqv)

def deque (t : BinType α) : BinType (List α) :=
  container t (outRange t) (fun v x => v ++ [x]) (fun _ => True) (List.Forall₂ t.eqv)

/-- `insert` of `std::set` and `std::map`: an element that is there stays. -/
def insertSorted (lt : α → α → Bool) : List α → α → List α
  | [], x => [x]
  | y :: l, x => if lt x y then x :: y :: l else if lt y x then y :: insertSorted lt l x else y :: l

/-- A `std::set` is the list of its elements in order. -/
def set (lt : α → α → Bool) (t : BinType α) : BinType (List α) :=
  container t (outRange t) (insertSorted lt) (List.Pairwise fun x y => lt x y = true)
    (List.Forall₂ t.eqv)

def pair (a : BinType α) (b : BinType β) : BinType (α × β) where
  out s p := do
    let s ← a.out s p.1
    b.out s p.2
  inn s old := do
    let (x, s) ← a.inn s old.1
    let (y, s) ← b.inn s old.2
    return ((x, y), s)
  init := (a.init, b.init)
  valid p := a.valid p.1 ∧ b.valid p.2
  fresh p := a.fresh p.1 ∧ b.fresh p.2
  eqv p q := a.eqv p.1 q.1 ∧ b.eqv p.2 q.2
  bytes p := a.bytes p.1 ++ b.bytes p.2
  size p := a.size p.1 + b.size p.2

/-- A `std::map` is the list of its entries in the order of the keys. -/
def map (lt : α → α → Bool) (k : BinType α) (v : BinType β) : BinType (List (α × β)) :=
  container (pair k v) (outRange (pair k v)) (insertSorted fun x y => lt x.1 y.1)
    (List.Pairwise fun x y => lt x.1 y.1 = true) (List.Forall₂ (pair k v).eqv)

/-- `insert` of `std::unordered_map`: an entry that is there stays. -/
def insertUnordered (eq : α → α → Bool) (l : List (α × β)) (x : α × β) : List (α × β) :=
  if l.any fun y => eq y.1 x.1 then l else x :: l

/-- A `std::unordered_map` is the list of its entries in the order it is gone through; two are
equal if one has, in some order, the entries of the other. -/
def unorderedMap (eq : α → α → Bool) (k : BinType α) (v : BinType β) : BinType (List (α × β)) :=
  container (pair k v) (outRange (pair k v)) (insertUnordered eq)
    (List.Pairwise fun x y => eq x.1 y.1 = false)
    (fun l l' => ∃ l'', l'.Perm l'' ∧ l.Forall₂ (pair k v).eqv l'')

/-- `TupleIO<TupleT, 0>`. -/
def tupleNil : BinType Unit where
  out s _ := .ok s
  inn s _ := .ok ((), s)
  init := ()
  valid _ := True
  fresh _ := True
  eqv _ _ := True
  bytes _ := []
  size _ := 0

/-- `TupleIO<TupleT, N>`: the first `N - 1` components, then the last. -/
def tupleSnoc (a : BinType α) (b : BinType β) : BinType (α × β) := pair a b

/-- A stream in a stream; it is read into one that has nothing unread. -/
def stream : BinType SArrayBinStream where
  out s v := do
    let s ← sizeT.out s v.size
    return s.addBin v.unread
  inn s old := do
    let (len, s) ← sizeT.inn s 0
    check .nested (old.size = 0)
    let bin ← s.read s.getPtr len
    let (_, s) ← s.popBin len
    return (.copyFrom bin, s)
  init := .empty
  valid _ := True
  fresh v := v.size = 0
  eqv v v' := v.unread = v'.unread
  bytes v := leBytes 8 v.size ++ v.unread
  size v := 8 + v.size

section RoundTrips

variable {t : BinType α} {eq : α → α → Bool}

/-- The length is read and the elements follow. -/
theorem read_length {n : Nat} {bytes rest : List UInt8} (hn : n < 2 ^ 31)
    (hs : s.buffer.length < 2 ^ 31) (hu : s.unread = (leBytes 8 n ++ bytes) ++ rest) :
    sizeT.inn s 0 = .ok (n, s.skip 8) ∧ (s.skip 8).unread = bytes ++ rest := by
  rw [append_assoc] at hu
  have hskip := SArrayBinStream.unread_skip hu
  rw [length_leBytes] at hskip
  exact ⟨triv_inn .sizeT 0 (Nat.lt_trans hn (by decide)) (by omega) (Nat.lt_of_le_of_lt s.le hs) hu,
    hskip⟩

theorem foldl_concat (l : List α) (c : List α) : l.foldl (fun v x => v ++ [x]) c = c ++ l := by
  induction l generalizing c with
  | nil => exact (append_nil c).symm
  | cons x l ih => rw [foldl_cons, ih, append_assoc, singleton_append]

theorem string_roundTrip : RoundTrip (string T) where
  init := trivial
  length v := by
    have := length_flatMap_le (triv_roundTrip T) v
    show (leBytes 8 v.length ++ v.flatMap T.toBytes).length ≤ 8 + sizeAll (triv T) v
    rw [length_append, length_leBytes]
    exact Nat.add_le_add_left this 8
  write s v hv hsz := by
    have hsz' : 8 + sizeAll (triv T) v < 2 ^ 31 := hsz
    have hall : ∀ c ∈ v, (triv T).valid c ∧ (triv T).size c < 2 ^ 31 := fun c hc => by
      have := size_le_sizeAll (triv T) hc
      exact ⟨hv c hc, by omega⟩
    show outRange (triv T) v (s.addBin (leBytes 8 v.length)) = _
    rw [outRange_ok (triv_roundTrip T) v _ hall, SArrayBinStream.addBin_addBin]
    rfl
  read s old v rest hv hsz _ hs hu := by
    have hsz' : 8 + sizeAll (triv T) v < 2 ^ 31 := hsz
    have hlen := length_le_sizeAll (triv T) v
    have hall : ∀ c ∈ v, (triv T).valid c ∧ (triv T).size c < 2 ^ 31 := fun c hc => by
      have := size_le_sizeAll (triv T) hc
      exact ⟨hv c hc, by omega⟩
    obtain ⟨hread, hu'⟩ := read_length (by omega) hs hu
    obtain ⟨v', hv', heqv⟩ := inRange_ok (triv_roundTrip T) (fun v c => v ++ [c]) v [] (s.skip 8) rest
      hall hs hu'
    have hveq : v = v' := forall₂_eq_eq_eq ▸ heqv
    refine ⟨v, ?_, rfl⟩
    show (sizeT.inn s 0 >>= _) = _
    rw [hread]
    refine hv'.trans ?_
    rw [foldl_concat, nil_append, ← hveq, SArrayBinStream.skip_skip]
    show _ = Except.ok (v, s.skip (leBytes 8 v.length ++ v.flatMap T.toBytes).length)
    rw [length_append, length_leBytes]
    rfl

/-- **Containers.**  The loop writes the elements, and taking in what counts as equal to them
gives what counts as equal to the container. -/
theorem container_roundTrip (ht : RoundTrip t)
    {loop : List α → SArrayBinStream → Except BinCheck SArrayBinStream}
    {insert : List α → α → List α} {inv : List α → Prop} {eqv : List α → List α → Prop}
    (hloop : ∀ l s, (∀ x ∈ l, t.valid x ∧ t.size x < 2 ^ 31) → l.length < 2 ^ 31 →
      loop l s = .ok (s.addBin (l.flatMap t.bytes)))
    (hins : ∀ l l', inv l → l.Forall₂ t.eqv l' → eqv l (l'.foldl insert [])) :
    RoundTrip (container t loop insert inv eqv) := by
  have hall : ∀ v, (∀ x ∈ v, t.valid x) → 8 + t.sizeAll v < 2 ^ 31 →
      ∀ x ∈ v, t.valid x ∧ t.size x < 2 ^ 31 := fun v hv hsz x hx => by
    have := size_le_sizeAll t hx
    exact ⟨hv x hx, by omega⟩
  constructor
  · exact trivial
  · intro v
    show (leBytes 8 v.length ++ v.flatMap t.bytes).length ≤ 8 + t.sizeAll v
    rw [length_append, length_leBytes]
    exact Nat.add_le_add_left (length_flatMap_le ht v) 8
  · intro s v hv hsz
    have hsz' : 8 + t.sizeAll v < 2 ^ 31 := hsz
    have hlen := length_le_sizeAll t v
    show loop v (s.addBin (leBytes 8 v.length)) = _
    rw [hloop v _ (hall v hv.2 hsz') (by omega), SArrayBinStream.addBin_addBin]
    rfl
  · intro s old v rest hv hsz _ hs hu
    have hsz' : 8 + t.sizeAll v < 2 ^ 31 := hsz
    have hlen := length_le_sizeAll t v
    obtain ⟨hread, hu'⟩ := read_length (by omega) hs hu
    obtain ⟨v', hv', heqv⟩ := inRange_ok ht insert v [] (s.skip 8) rest (hall v hv.2 hsz') hs hu'
    refine ⟨v'.foldl insert [], ?_, hins v v' hv.1 heqv⟩
    show (sizeT.inn s 0 >>= _) = _
    rw [hread]
    refine ((inInt_eq insert _ (by omega)).trans hv').trans ?_
    rw [SArrayBinStream.skip_skip]
    show _ = Except.ok (_, s.skip (leBytes 8 v.length ++ v.flatMap t.bytes).length)
    rw [length_append, length_leBytes]

theorem vector_roundTrip (ht : RoundTrip t) : RoundTrip (vector t) := by
  refine container_roundTrip ht (fun l s hl hlen => ?_) fun l l' _ h => ?_
  · exact (outInt_eq s (by omega)).trans (outRange_ok ht l s hl)
  · rw [foldl_concat, nil_append]
    exact h

theorem deque_roundTrip (ht : RoundTrip t) : RoundTrip (deque t) := by
  refine container_roundTrip ht (fun l s hl _ => outRange_ok ht l s hl) fun l l' _ h => ?_
  rw [foldl_concat, nil_append]
  exact h

/-- What is greater than all elements goes to the end. -/
theorem insertSorted_concat (hasymm : ∀ x y, lt x y = true → lt y x = false) (l : List α) (x : α)
    (h : ∀ y ∈ l, lt y x = true) : insertSorted lt l x = l ++ [x] := by
  induction l with
  | nil => rfl
  | cons y l ih =>
    have hy := h y mem_cons_self
    rw [insertSorted, hasymm y x hy, hy, ih fun z hz => h z (mem_cons_of_mem _ hz)]
    rfl

theorem foldl_insertSorted (hasymm : ∀ x y, lt x y = true → lt y x = false) (l c : List α)
    (h : (c ++ l).Pairwise fun x y => lt x y = true) : l.foldl (insertSorted lt) c = c ++ l := by
  induction l generalizing c with
  | nil => exact (append_nil c).symm
  | cons x l ih =>
    have hx : ∀ y ∈ c, lt y x = true := fun y hy =>
      (pairwise_append.mp h).2.2 y hy x mem_cons_self
    rw [foldl_cons, insertSorted_concat hasymm c x hx, ih (c ++ [x]) (by
      rw [append_assoc]; exact h), append_assoc, singleton_append]

/-- A relation that does not tell apart what counts as equal holds in the list that is read. -/
theorem pairwise_of_forall₂ {r : α → α → Prop}
    (hr : ∀ x y x' y', eqv x x' → eqv y y' → r x y → r x' y') {l l' : List α} (h : l.Forall₂ eqv l')
    (hl : l.Pairwise r) : l'.Pairwise r := by
  induction h with
  | nil => exact .nil
  | @cons x x' l l' hx hll ih =>
    obtain ⟨hxl, hl⟩ := pairwise_cons.mp hl
    refine pairwise_cons.mpr ⟨fun y' hy' => ?_, ih hl⟩
    obtain ⟨i, hi, rfl⟩ := mem_iff_getElem.mp hy'
    have hi' : i < l.length := hll.length_eq ▸ hi
    exact hr x _ x' _ hx (forall₂_iff_get.mp hll |>.2 i hi' hi) (hxl _ (getElem_mem hi'))

theorem set_roundTrip (hasymm : ∀ x y, lt x y = true → lt y x = false)
    (hlt : ∀ x y x' y', t.eqv x x' → t.eqv y y' → lt x y = true → lt x' y' = true)
    (ht : RoundTrip t) : RoundTrip (set lt t) := by
  refine container_roundTrip ht (fun l s hl _ => outRange_ok ht l s hl) fun l l' hinv h => ?_
  rw [foldl_insertSorted hasymm l' [] (pairwise_of_forall₂ hlt h hinv), nil_append]
  exact h

theorem pair_roundTrip {a : BinType α} {b : BinType β} (ha : RoundTrip a) (hb : RoundTrip b) :
    RoundTrip (pair a b) where
  init := ⟨ha.init, hb.init⟩
  length p := by
    show (a.bytes p.1 ++ b.bytes p.2).length ≤ a.size p.1 + b.size p.2
    rw [length_append]
    exact Nat.add_le_add (ha.length p.1) (hb.length p.2)
  write s p hv hsz := by
    have hsz' : a.size p.1 + b.size p.2 < 2 ^ 31 := hsz
    show (a.out s p.1 >>= fun s => b.out s p.2) = _
    rw [ha.write s p.1 hv.1 (by omega)]
    refine (hb.write _ p.2 hv.2 (by omega)).trans ?_
    rw [SArrayBinStream.addBin_addBin]
    rfl
  read s old p rest hv hsz hf hs hu := by
    have hsz' : a.size p.1 + b.size p.2 < 2 ^ 31 := hsz
    have hu' : s.unread = a.bytes p.1 ++ (b.bytes p.2 ++ rest) := by
      rw [hu, ← append_assoc]
      rfl
    obtain ⟨x, hx, hxe⟩ := ha.read s old.1 p.1 _ hv.1 (by omega) hf.1 hs hu'
    obtain ⟨y, hy, hye⟩ := hb.read (s.skip (a.bytes p.1).length) old.2 p.2 rest hv.2 (by omega) hf.2 hs
      (SArrayBinStream.unread_skip hu')
    refine ⟨(x, y), ?_, hxe, hye⟩
    show (a.inn s old.1 >>= _) = _
    rw [hx]
    show (b.inn (s.skip (a.bytes p.1).length) old.2 >>= _) = _
    rw [hy, SArrayBinStream.skip_skip]
    show _ = Except.ok ((x, y), s.skip (a.bytes p.1 ++ b.bytes p.2).length)
    rw [length_append]
    rfl

theorem map_roundTrip (hasymm : ∀ x y, lt x y = true → lt y x = false)
    (hlt : ∀ x y x' y', k.eqv x x' → k.eqv y y' → lt x y = true → lt x' y' = true)
    (hk : RoundTrip k) (hv : RoundTrip v) : RoundTrip (map lt k v) := by
  have ht := pair_roundTrip hk hv
  refine container_roundTrip ht (fun l s hl _ => outRange_ok ht l s hl) fun l l' hinv h => ?_
  have hl' : l'.Pairwise fun x y => lt x.1 y.1 = true :=
    pairwise_of_forall₂ (fun x y x' y' hx hy => hlt x.1 y.1 x'.1 y'.1 hx.1 hy.1) h hinv
  rw [foldl_insertSorted (fun x y => hasymm x.1 y.1) l' [] hl', nil_append]
  exact h

/-- Entries with new keys are all taken in. -/
theorem foldl_insertUnordered (l c : List (α × β))
    (h : (c.reverse ++ l).Pairwise fun x y => eq x.1 y.1 = false) :
    l.foldl (insertUnordered eq) c = l.reverse ++ c := by
  induction l generalizing c with
  | nil => rfl
  | cons x l ih =>
    have hx : c.any (fun y => eq y.1 x.1) = false := by
      rw [any_eq_false]
      intro y hy
      have := (pairwise_append.mp h).2.2 y (mem_reverse.mpr hy) x mem_cons_self
      simp [this]
    rw [foldl_cons, insertUnordered, hx, ih _ (by
      rw [if_neg (by decide), reverse_cons, append_assoc]; exact h)]
    simp

theorem unorderedMap_roundTrip
    (heq : ∀ x y x' y', k.eqv x x' → k.eqv y y' → eq x y = false → eq x' y' = false)
    (hk : RoundTrip k) (hv : RoundTrip v) : RoundTrip (unorderedMap eq k v) := by
  have ht := pair_roundTrip hk hv
  refine container_roundTrip ht (fun l s hl _ => outRange_ok ht l s hl) fun l l' hinv h => ?_
  have hl' : l'.Pairwise fun x y => eq x.1 y.1 = false :=
    pairwise_of_forall₂ (fun x y x' y' hx hy => heq x.1 y.1 x'.1 y'.1 hx.1 hy.1) h hinv
  refine ⟨l', ?_, h⟩
  rw [foldl_insertUnordered l' [] hl', append_nil]
  exact reverse_perm l'

theorem tupleNil_roundTrip : RoundTrip tupleNil where
  init := trivial
  length _ := Nat.le_refl 0
  write s _ _ _ := congrArg Except.ok (SArrayBinStream.addBin_nil s).symm
  read s _ _ _ _ _ _ _ _ :=
    ⟨(), congrArg (fun s => Except.ok ((), s)) (SArrayBinStream.skip_zero s).symm, trivial⟩

theorem stream_roundTrip : RoundTrip stream where
  init := rfl
  length v := by
    show (leBytes 8 v.size ++ v.unread).length ≤ 8 + v.size
    rw [length_append, length_leBytes, SArrayBinStream.length_unread]
  write s v _ _ := by
    show Except.ok ((s.addBin (leBytes 8 v.size)).addBin v.unread) = _
    rw [SArrayBinStream.addBin_addBin]
    rfl
  read s old v rest _ hsz hf hs hu := by
    have hsz' : 8 + v.size < 2 ^ 31 := hsz
    obtain ⟨hlen, hu'⟩ := read_length (by omega) hs hu
    obtain ⟨hpop, hread⟩ := SArrayBinStream.popBin_ok hu' (Nat.lt_trans hs (by decide))
      (Nat.lt_of_le_of_lt (s.skip 8).le hs)
    rw [SArrayBinStream.length_unread] at hpop hread
    refine ⟨.copyFrom v.unread, ?_, rfl⟩
    show (sizeT.inn s 0 >>= _) = _
    rw [hlen]
    have hf' : old.size = 0 := hf
    show (check _ _ >>= _) = _
    rw [check_pos hf']
    show ((s.skip 8).read (s.skip 8).getPtr v.size >>= _) = _
    rw [hread (s.skip 8) rfl]
    show ((s.skip 8).popBin v.size >>= _) = _
    rw [hpop, SArrayBinStream.skip_skip]
    show _ = Except.ok (_, s.skip (leBytes 8 v.size ++ v.unread).length)
    rw [length_append, length_leBytes, SArrayBinStream.length_unread]
    rfl

end RoundTrips

/-! ### Structs -/

/-- A struct.  `operator<<` writes the fields `fields v`, one after the other, and `operator>>`
reads as many, into those of the old value, and makes the new one of them. -/
def struct (writes : BinType β) (fields : α → β) (reads : BinType γ) (old : α → γ) (make : γ → α)
    (init : α) (eqv : α → α → Prop) : BinType α where
  out s v := writes.out s (fields v)
  inn s v := do
    let (x, s) ← reads.inn s (old v)
    return (make x, s)
  init := init
  valid v := writes.valid (fields v)
  fresh v := reads.fresh (old v)
  eqv := eqv
  bytes v := writes.bytes (fields v)
  size v := writes.size (fields v)

/-- **Structs.**  The lists of fields are the same, and the fields make up the value. -/
theorem struct_roundTrip {t : BinType β} {fields old : α → β} {make : β → α} {init : α}
    (ht : RoundTrip t) (hinit : t.fresh (old init))
    (heqv : ∀ v x, t.eqv (fields v) x → eqv v (make x)) :
    RoundTrip (struct t fields t old make init eqv) where
  init := hinit
  length v := ht.length (fields v)
  write s v hv hsz := ht.write s (fields v) hv hsz
  read s v₀ v rest hv hsz hf hs hu := by
    obtain ⟨x, hx, hxe⟩ := ht.read s (old v₀) (fields v) rest hv hsz hf hs hu
    refine ⟨make x, ?_, heqv v x hxe⟩
    show (t.inn s (old v₀) >>= _) = _
    rw [hx]
    rfl

/-- Only equal values count as equal. -/
def Strict (t : BinType α) : Prop := ∀ x y, t.eqv x y → x = y

theorem triv_strict : Strict (triv T) := fun _ _ h => h

theorem string_strict : Strict (string T) := fun _ _ h => h

theorem forall₂_strict (h : Strict t) {l l' : List α} (hl : l.Forall₂ t.eqv l') : l = l' := by
  induction hl with
  | nil => rfl
  | cons hx _ ih => rw [h _ _ hx, ih]

theorem vector_strict (h : Strict t) : Strict (vector t) :=
  fun _ _ hl => forall₂_strict h hl

theorem pair_strict {a : BinType α} {b : BinType β} (ha : Strict a) (hb : Strict b) :
    Strict (pair a b) := fun _ _ h => Prod.ext (ha _ _ h.1) (hb _ _ h.2)

theorem map_strict (hk : Strict k) (hv : Strict v) :
    Strict (map lt k v) := fun _ _ hl => forall₂_strict (pair_strict hk hv) hl

/-- A struct all of whose fields are compared by equality. -/
theorem struct_roundTrip_eq {t : BinType β} {fields old : α → β} {make : β → α} {init : α}
    (ht : RoundTrip t) (hs : Strict t) (hinit : t.fresh (old init))
    (hmake : ∀ v, make (fields v) = v) : RoundTrip (struct t fields t old make init Eq) :=
  struct_roundTrip ht hinit fun v x hx => by rw [← hs _ _ hx, hmake]

end BinType

end Tangram
