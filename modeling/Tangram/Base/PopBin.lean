import Tangram.Base.SArrayBinStream

/-!
# The cursor on large buffers

`SArrayBinStream::PopBin` over the whole range of `size_t`.  The `CHECK` adds in `size_t`,
and `buffer_[front_]` goes through the `int` of `SArray::operator[]`, so `PopBin` does what
it is for exactly where the sum does not wrap and the position is an `int` (`popsBin_iff`).
A vector of trivially copyable elements is one `PopBin` for its length and one for each
element: it is read back as far as every element starts below `2 ^ 31`.
-/

namespace Tangram

open StepRun Bytes List

namespace SArrayBinStream

variable {s : SArrayBinStream} {sz : Nat}

/-- What `PopBin` is for, with `front_ + sz` the sum of the numbers: the bytes from `front_` on,
where `GetPtr` was, and the stream behind them; a failed `CHECK` where there are not so many. -/
structure PopsBin (s : SArrayBinStream) (sz : Nat) : Prop where
  inside : s.front + sz ≤ s.buffer.length → ∃ ptr t, s.popBin sz = .ok (ptr, t) ∧ ptr = s.getPtr ∧
    t.buffer = s.buffer ∧ t.front = s.front + sz ∧ t.read ptr sz = .ok (s.unread.take sz)
  outside : s.buffer.length < s.front + sz → s.popBin sz = .error .popBin

theorem index_eq_iff {n : Nat} (hn : n < 2 ^ 64) : index n = n ↔ n < 2 ^ 31 := by
  constructor
  · intro h
    have hlt : index n < 2 ^ 31 := Int.bmod_lt (by decide)
    omega
  · intro h
    exact Int.bmod_eq_of_le_mul_two (by omega) (by omega)

theorem popBin_of_mod_le (h : (s.front + sz) % 2 ^ 64 ≤ s.buffer.length) :
    s.popBin sz = .ok (index s.front, ⟨s.buffer, (s.front + sz) % 2 ^ 64, h⟩) := dif_pos h

theorem index_of_popBin {ptr : Int} {t : SArrayBinStream} (h : s.popBin sz = .ok (ptr, t)) :
    index s.front = ptr := by
  unfold popBin at h
  split at h
  · exact (Prod.mk.inj (Except.ok.inj h)).1
  · cases h

theorem popBin_inside (hs : s.buffer.length < 2 ^ 64) (hin : s.front + sz ≤ s.buffer.length)
    (hf : s.front < 2 ^ 31) : ∃ ptr t, s.popBin sz = .ok (ptr, t) ∧ ptr = s.getPtr ∧
      t.buffer = s.buffer ∧ t.front = s.front + sz ∧ t.read ptr sz = .ok (s.unread.take sz) := by
  have hlen : (s.unread.take sz).length = sz := by
    have := length_unread s
    rw [length_take]
    unfold size at this
    omega
  obtain ⟨hpop, hread⟩ := popBin_ok (take_append_drop sz s.unread).symm hs hf
  rw [hlen] at hpop hread
  exact ⟨_, _, hpop, rfl, rfl, Nat.min_eq_left hin, hread _ rfl⟩

theorem popsBin_iff (hs : s.buffer.length < 2 ^ 64) (hsz : sz < 2 ^ 64) :
    s.PopsBin sz ↔
      s.front + sz < 2 ^ 64 ∧ (s.front + sz ≤ s.buffer.length → s.front < 2 ^ 31) := by
  have hle := s.le
  constructor
  · intro h
    refine ⟨?_, fun hin => ?_⟩
    · by_contra hwrap
      -- the sum wraps to a position before `front_`, which the check lets pass
      have hmod : (s.front + sz) % 2 ^ 64 ≤ s.buffer.length := by omega
      have hpop := h.outside (by omega)
      rw [popBin_of_mod_le hmod] at hpop
      cases hpop
    · obtain ⟨ptr, t, hpop, hptr, -⟩ := h.inside hin
      exact (index_eq_iff (n := s.front) (by omega)).mp ((index_of_popBin hpop).trans hptr)
  · rintro ⟨hsum, hf⟩
    refine ⟨fun hin => popBin_inside hs hin (hf hin), fun hout => dif_neg ?_⟩
    rw [Nat.mod_eq_of_lt hsum]
    omega

/-- From `2 ^ 31` on the `int` is negative, and there is nothing before the buffer. -/
theorem read_index_error (hlo : 2 ^ 31 ≤ s.front) (hhi : s.front < 2 ^ 32) (t : SArrayBinStream) :
    t.read (index s.front) sz = .error .memory := by
  have hneg : index s.front = s.front - (2 ^ 32 : Nat) :=
    (Int.sub_bmod_right _ _).symm.trans (Int.bmod_eq_of_le_mul_two (by omega) (by omega))
  exact if_neg (by omega)

end SArrayBinStream

namespace BinType

open SArrayBinStream (popsBin_iff popBin_of_mod_le read_index_error le_of_unread unread_skip)

variable {α γ : Type} (T : TriviallyCopyable α)

theorem triv_inn_error {s : SArrayBinStream} (old : α) {v : α} {rest : List UInt8}
    (hu : s.unread = T.toBytes v ++ rest) (hlo : 2 ^ 31 ≤ s.front) (hhi : s.front < 2 ^ 32) :
    (triv T).inn s old = .error .memory := by
  have hle := le_of_unread hu
  rw [T.length_toBytes] at hle
  have hpop := popBin_of_mod_le (Nat.le_trans (Nat.mod_le _ _) hle)
  exact bind_eq_error.mpr
    (.inr ⟨_, hpop, bind_eq_error.mpr (.inl (read_index_error hlo hhi _))⟩)

/-- Every element of `l`, read from `front_` on, starts at a position that is an `int`. -/
def Starts (front : Nat) (l : List α) : Prop := ∀ k < l.length, front + k * T.size < 2 ^ 31

instance (front : Nat) (l : List α) : Decidable (Starts T front l) :=
  inferInstanceAs (Decidable (∀ k < l.length, _))

theorem starts_cons {front : Nat} {x : α} {l : List α} :
    Starts T front (x :: l) ↔ front < 2 ^ 31 ∧ Starts T (front + T.size) l := by
  constructor
  · intro h
    refine ⟨by have := h 0 (Nat.succ_pos _); omega, fun k hk => ?_⟩
    have := h (k + 1) (Nat.succ_lt_succ hk)
    rw [Nat.succ_mul] at this
    omega
  · rintro ⟨hf, h⟩ k hk
    cases k with
    | zero => omega
    | succ k =>
      have := h k (Nat.lt_of_succ_lt_succ hk)
      rw [Nat.succ_mul]
      omega

theorem length_flatMap_toBytes (l : List α) :
    (l.flatMap T.toBytes).length = l.length * T.size := by
  induction l with
  | nil => exact (Nat.zero_mul _).symm
  | cons x l ih =>
    rw [flatMap_cons, length_append, ih, T.length_toBytes, length_cons,
      Nat.succ_mul]
    omega

/-- **The elements of a vector.**  They are read back where all of them start below `2 ^ 31`; the
first that does not is read before the buffer, elements of more than `2 ^ 31` bytes apart. -/
theorem inInt_triv (insert : γ → α → γ) (l : List α) (i : Nat) (c : γ) (s : SArrayBinStream)
    (rest : List UInt8) (hl : ∀ x ∈ l, T.valid x) (hs : s.buffer.length < 2 ^ 64)
    (hu : s.unread = l.flatMap T.toBytes ++ rest) :
    (Starts T s.front l → i + l.length < 2 ^ 31 → inInt (triv T) insert i l.length (c, s) =
      .ok (l.foldl insert c, s.skip (l.length * T.size))) ∧
    (¬ Starts T s.front l → s.front < 2 ^ 32 → T.size ≤ 2 ^ 31 →
      ∀ r, inInt (triv T) insert i l.length (c, s) ≠ .ok r) := by
  induction l generalizing i c s with
  | nil =>
    refine ⟨fun _ _ => ?_, fun h => absurd (fun k hk => absurd hk (Nat.not_lt_zero k)) h⟩
    rw [length_nil, Nat.zero_mul, SArrayBinStream.skip_zero]
    rfl
  | cons x l ih =>
    rw [flatMap_cons, append_assoc] at hu
    have hfront : (s.skip T.size).front = s.front + T.size := by
      have := le_of_unread hu
      rw [T.length_toBytes] at this
      exact Nat.min_eq_left this
    have hu' : (s.skip T.size).unread = l.flatMap T.toBytes ++ rest := by
      rw [← T.length_toBytes x]
      exact unread_skip hu
    obtain ⟨hread, hfail⟩ := ih (i + 1) (insert c x) (s.skip T.size)
      (fun y hy => hl y (mem_cons_of_mem _ hy)) hs hu'
    rw [hfront] at hread hfail
    rw [starts_cons, length_cons, inInt]
    have hone (hf : s.front < 2 ^ 31) : (triv T).inn s (triv T).init = .ok (x, s.skip T.size) :=
      triv_inn T _ (hl x mem_cons_self) hs hf hu
    refine ⟨fun hst hi => ?_, fun hst hhi hT r => ?_⟩
    · obtain ⟨hf, hst⟩ := hst
      rw [hone hf]
      show (check _ _ >>= fun _ => inInt (triv T) insert (i + 1) l.length _) = _
      rw [check_pos (by omega), Nat.succ_mul, Nat.add_comm (_ * _), ← SArrayBinStream.skip_skip]
      exact hread hst (by omega)
    · by_cases hf : s.front < 2 ^ 31
      · rw [hone hf]
        intro hok
        obtain ⟨_, _, hrest⟩ : ∃ _, _ := bind_eq_ok.mp (show (check _ _ >>= fun _ =>
          inInt (triv T) insert (i + 1) l.length (insert c x, s.skip T.size)) = _ from hok)
        exact hfail (fun hst' => hst ⟨hf, hst'⟩) (by omega) hT r hrest
      · rw [triv_inn_error T _ hu (by omega) hhi]
        intro hok
        cases hok

/-- A vector in a stream of its own. -/
def written (v : List α) : SArrayBinStream := .copyFrom ((vector (triv T)).bytes v)

variable {T} {v : List α}

theorem length_written : (written T v).buffer.length = 8 + v.length * T.size := by
  show (leBytes 8 v.length ++ v.flatMap T.toBytes).length = _
  rw [length_append, length_leBytes, length_flatMap_toBytes]

theorem vector_inn (hs : (written T v).buffer.length < 2 ^ 64) (old : List α) :
    (vector (triv T)).inn (written T v) old =
        inInt (triv T) (fun v x => v ++ [x]) 0 v.length ([], (written T v).skip 8) ∧
      ((written T v).skip 8).front = 8 ∧
      ((written T v).skip 8).unread = v.flatMap T.toBytes ++ [] := by
  have hlen := length_written (T := T) (v := v)
  have hv : v.length ≤ v.length * T.size := Nat.le_mul_of_pos_right _ T.pos
  have hu : (written T v).unread = leBytes 8 v.length ++ (v.flatMap T.toBytes ++ []) := by
    rw [append_nil]
    rfl
  have hskip := unread_skip hu
  rw [length_leBytes] at hskip
  refine ⟨?_, ?_, hskip⟩
  · show (sizeT.inn (written T v) 0 >>= _) = _
    rw [triv_inn .sizeT 0 (show v.length < 2 ^ 64 by omega) hs (by exact Nat.two_pow_pos 31) hu]
    rfl
  · show min (0 + 8) (written T v).buffer.length = 8
    omega

theorem length_of_starts (h : Starts T 8 v) : v.length < 2 ^ 31 := by
  by_contra hlen
  have := h (2 ^ 31 - 1) (by omega)
  have : 2 ^ 31 - 1 ≤ (2 ^ 31 - 1) * T.size := Nat.le_mul_of_pos_right _ T.pos
  omega

/-- A vector that is written and read. -/
theorem vector_iff (hv : ∀ x ∈ v, T.valid x) (hs : (written T v).buffer.length < 2 ^ 64)
    (old : List α) :
    (Starts T 8 v → (vector (triv T)).out .empty v = .ok (written T v) ∧
      (vector (triv T)).inn (written T v) old =
        .ok (v, (written T v).skip (written T v).buffer.length)) ∧
    (¬ Starts T 8 v → T.size ≤ 2 ^ 31 → ∀ r, (vector (triv T)).inn (written T v) old ≠ .ok r) := by
  obtain ⟨hinn, hfront, hu⟩ := vector_inn hs old
  obtain ⟨hread, hfail⟩ := inInt_triv T (fun v x => v ++ [x]) v 0 [] ((written T v).skip 8) []
    hv hs hu
  rw [hfront] at hread hfail
  refine ⟨fun h => ⟨?_, ?_⟩, fun h hT => hinn ▸ hfail h (by decide) hT⟩
  · have := length_of_starts h
    show outInt (triv T) 0 v (.addBin .empty (leBytes 8 v.length)) = _
    rw [outInt_eq _ (by omega), outRange_eq fun _ _ _ => rfl, SArrayBinStream.addBin_addBin]
    rfl
  · have := length_of_starts h
    rw [hinn, hread h (by omega), foldl_concat, SArrayBinStream.skip_skip, length_written]
    rfl

end BinType

/-- **The cursor on large buffers.**  `PopBin` returns the bytes at `front_`, or fails its check,
exactly where `front_ + sz` does not wrap and the position of bytes that are there is an `int`.
A vector written to a stream is read back where every element starts below `2 ^ 31`, and not
where one does not, whatever its elements of up to `2 ^ 31` bytes are. -/
theorem SArrayBinStream.popsBin_and_vector (s : SArrayBinStream) (sz : Nat)
    (hs : s.buffer.length < 2 ^ 64) (hsz : sz < 2 ^ 64) {α : Type} (T : TriviallyCopyable α)
    (v old : List α) (hv : ∀ x ∈ v, T.valid x) (hw : (BinType.written T v).buffer.length < 2 ^ 64) :
    (s.PopsBin sz ↔
      s.front + sz < 2 ^ 64 ∧ (s.front + sz ≤ s.buffer.length → s.front < 2 ^ 31)) ∧
    (BinType.Starts T 8 v →
      (BinType.vector (.triv T)).out .empty v = .ok (BinType.written T v) ∧
        (BinType.vector (.triv T)).inn (BinType.written T v) old =
          .ok (v, (BinType.written T v).skip (BinType.written T v).buffer.length)) ∧
    (¬ BinType.Starts T 8 v → T.size ≤ 2 ^ 31 →
      ∀ r, (BinType.vector (.triv T)).inn (BinType.written T v) old ≠ .ok r) :=
  ⟨popsBin_iff hs hsz, BinType.vector_iff hv hw old⟩

theorem SArrayBinStream.popsBin_and_vector_small :
    (SArrayBinStream.mk [1, 2, 3] 1 (by decide)).PopsBin 2 ∧
      (BinType.vector .int).inn (BinType.written .int [7, 8]) [] =
        .ok ([7, 8], (BinType.written .int [7, 8]).skip 16) := by
  obtain ⟨hpop, hread, -⟩ := popsBin_and_vector (.mk [1, 2, 3] 1 (by decide)) 2 (by decide)
    (by decide) .int [7, 8] [] (by unfold TriviallyCopyable.int; decide) (by decide)
  exact ⟨hpop.mpr (by decide), (hread (by decide)).2⟩

/-- In a buffer of `2 ^ 31 + 1` bytes the last one is not popped, a size read from a stream of two
bytes passes the check although it is far too large, and `2 ^ 31` characters are not read back. -/
theorem SArrayBinStream.popsBin_fails :
    (∃ s : SArrayBinStream, s.buffer = List.replicate (2 ^ 31 + 1) 0 ∧ s.front = 2 ^ 31 ∧
      ¬ s.PopsBin 1) ∧
    ¬ (SArrayBinStream.mk [0, 0] 1 (by decide)).PopsBin (2 ^ 64 - 1) ∧
    ∀ r, (BinType.vector .char).inn (BinType.written .char (List.replicate (2 ^ 31) 0)) [] ≠
      .ok r := by
  refine ⟨⟨⟨List.replicate (2 ^ 31 + 1) 0, 2 ^ 31, ?_⟩, rfl, rfl, ?_⟩, ?_, ?_⟩
  · rw [length_replicate]
    exact Nat.le_succ _
  · rw [popsBin_iff (by rw [length_replicate]; decide) (by decide)]
    exact fun h => absurd (h.2 (Nat.le_of_eq length_replicate.symm)) (Nat.lt_irrefl _)
  · rw [popsBin_iff (by decide) (by decide)]
    decide
  · refine (BinType.vector_iff (fun _ _ => trivial) ?_ _).2 (fun h => ?_) (by decide)
    · rw [BinType.length_written, length_replicate]
      decide
    · have := BinType.length_of_starts h
      rw [length_replicate] at this
      exact Nat.lt_irrefl _ this

end Tangram
