import Tangram.Lib.Words

/-!
# Reading a block

`HdfsBlockReader::read_block` (`io/hdfs_block_reader.cpp`): `hdfsRead` is called until it returns
zero or the buffer of `hdfs_block_size_` bytes is full.  Every call asks for the whole block
size, whatever there is already, and its result, an `int` that is `-1` for an error, is
added to a `size_t`.

What `hdfsRead` returns is a sequence `results`, one for each call.  With a size below
`2 ^ 31` the reads stay in the buffer exactly when the first call reads all of it or
nothing; from `2 ^ 32` on, exactly when the file ends, without an error, before `2 ^ 31` bytes.
-/

namespace Tangram

open Words

namespace HdfsFile

/-- A call of `hdfsRead`: the offset in `data_`, the length it asks for, its result, and the
offset after it. -/
structure Call where
  start : Nat
  length : Int
  result : Int
  next : Nat
deriving DecidableEq, Repr

/-- The `while` loop from `start` on: the value of `start` after it, and the calls it made. -/
def readLoop (blockSize : Nat) : Nat → (Nat → Int) → Nat → Option (Nat × List Call)
  | 0, _, _ => none
  | fuel + 1, results, start =>
    if start < blockSize then
      let nbytes := toSize (results 0)
      let next := (start + nbytes) % 2 ^ 64
      let call := ⟨start, toInt blockSize, results 0, next⟩
      if nbytes = 0 then some (next, [call])
      else
        (readLoop blockSize fuel (fun k => results (k + 1)) next).map fun r => (r.1, call :: r.2)
    else some (start, [])

/-- `read_block`, which returns an `int`. -/
def readBlock (blockSize fuel : Nat) (results : Nat → Int) : Option (Int × List Call) :=
  (readLoop blockSize fuel results 0).map fun r => (toInt r.1, r.2)

/-- What `hdfsRead` may return for a length. -/
def Allowed (length r : Int) : Prop := r = -1 ∨ 0 ≤ r ∧ r ≤ length

/-- The bytes of the calls that were no errors. -/
def bytesRead (calls : List Call) : Int := (calls.map fun c => max 0 c.result).sum

/-- The window of the call is in the buffer, and an error is not counted. -/
structure Call.Inside (blockSize : Nat) (c : Call) : Prop where
  nonneg : 0 ≤ c.length
  le : c.start + c.length ≤ blockSize
  error : c.result = -1 → c.next = c.start

/-- `read_block` returns what it read, `buffer_` has that length, and every call was inside. -/
def ReadsInside (blockSize : Nat) (results : Nat → Int) : Prop :=
  ∃ fuel ret calls, readBlock blockSize fuel results = some (ret, calls) ∧
    (∀ c ∈ calls, c.Inside blockSize) ∧
    ret = bytesRead calls ∧ ret ≤ blockSize ∧ (toSize ret : Int) = bytesRead calls

/-- The first `n` results together. -/
def total : Nat → (Nat → Int) → Int
  | 0, _ => 0
  | n + 1, results => results 0 + total n fun k => results (k + 1)

/-- The file ends after `n` reads that all gave something, and an `int` can hold their sum. -/
def EndsAt (results : Nat → Int) (n : Nat) : Prop :=
  results n = 0 ∧ (∀ k < n, 0 < results k) ∧ total n results < 2 ^ 31

variable {blockSize fuel start s n : Nat} {results : Nat → Int} {calls : List Call} {r : Int}

theorem total_nonneg (h : ∀ k < n, 0 < results k) : 0 ≤ total n results := by
  induction n generalizing results with
  | zero => exact Int.le_refl 0
  | succ n ih =>
    have := h 0 (Nat.succ_pos n)
    have := ih fun k hk => h (k + 1) (Nat.succ_lt_succ hk)
    unfold total
    omega

theorem bytesRead_cons (c : Call) (calls : List Call) :
    bytesRead (c :: calls) = max 0 c.result + bytesRead calls := by
  rw [bytesRead, List.map_cons, List.sum_cons]
  rfl

theorem toSize_eq_zero (hr : Allowed (toInt blockSize) r) : toSize r = 0 ↔ r = 0 := by
  have := toInt_lt blockSize
  rcases hr with rfl | ⟨h, hle⟩
  · rw [toSize_neg_one]
    decide
  · have := toSize_of_nonneg h (by omega)
    omega

theorem next_eq (start : Nat) (r : Int) (hr : 0 ≤ r) (hsum : start + r < 2 ^ 64) :
    (((start + toSize r) % 2 ^ 64 : Nat) : Int) = start + r := by
  have := toSize_of_nonneg hr (by omega)
  omega

theorem Call.inside {next : Nat} (hlen : 0 ≤ toInt blockSize)
    (hle : start + toInt blockSize ≤ blockSize) (hr : 0 ≤ r) :
    Call.Inside blockSize ⟨start, toInt blockSize, r, next⟩ :=
  ⟨hlen, hle, fun h => absurd hr (Int.not_le.mpr (Int.lt_of_le_of_lt (Int.le_of_eq h) (by decide)))⟩

/-- A call that is inside is no error, since that would be counted, and its bytes are. -/
theorem Call.Inside.next (hr : Allowed (toInt blockSize) r) (hB : blockSize < 2 ^ 64)
    (h : Call.Inside blockSize ⟨start, toInt blockSize, r, (start + toSize r) % 2 ^ 64⟩) :
    0 ≤ r ∧ (((start + toSize r) % 2 ^ 64 : Nat) : Int) = start + r := by
  have hle : start + toInt blockSize ≤ blockSize := h.le
  rcases hr with rfl | ⟨hr, hlen⟩
  · have herr : (start + toSize (-1)) % 2 ^ 64 = start := h.error rfl
    rw [toSize_neg_one] at herr
    omega
  · exact ⟨hr, next_eq start r hr (by omega)⟩

theorem readLoop_of_le (h : blockSize ≤ start) :
    readLoop blockSize (fuel + 1) results start = some (start, []) := if_neg (by omega)

theorem readLoop_of_lt (h : start < blockSize) :
    readLoop blockSize (fuel + 1) results start =
      let next := (start + toSize (results 0)) % 2 ^ 64
      let call := ⟨start, toInt blockSize, results 0, next⟩
      if toSize (results 0) = 0 then some (next, [call])
      else (readLoop blockSize fuel (fun k => results (k + 1)) next).map
        fun r => (r.1, call :: r.2) := if_pos h

/-- What is left of a run after its first call. -/
theorem readLoop_cases (h : readLoop blockSize fuel results start = some (s, calls))
    (hs : start < blockSize) (hr : Allowed (toInt blockSize) (results 0)) :
    ∃ rest, calls = ⟨start, toInt blockSize, results 0,
        (start + toSize (results 0)) % 2 ^ 64⟩ :: rest ∧
      (results 0 = 0 ∧ s = (start + toSize (results 0)) % 2 ^ 64 ∧ rest = [] ∨
        ∃ fuel', fuel = fuel' + 1 ∧ results 0 ≠ 0 ∧ readLoop blockSize fuel' (fun k => results (k + 1))
          ((start + toSize (results 0)) % 2 ^ 64) = some (s, rest)) := by
  cases fuel with
  | zero => cases h
  | succ fuel =>
    rw [readLoop_of_lt hs] at h
    dsimp only at h
    split at h
    next h0 =>
      cases h
      exact ⟨[], rfl, .inl ⟨(toSize_eq_zero hr).mp h0, rfl, rfl⟩⟩
    next h0 =>
      obtain ⟨⟨s', rest⟩, hrest, heq⟩ := Option.map_eq_some_iff.mp h
      cases heq
      exact ⟨rest, rfl, .inr ⟨fuel, rfl, fun h => h0 ((toSize_eq_zero hr).mpr h), hrest⟩⟩

/-- A run whose calls are all inside counts what it read, and ends where the buffer or the file
does. -/
theorem readLoop_inside (hr : ∀ k, Allowed (toInt blockSize) (results k))
    (hB : blockSize < 2 ^ 64) (h : readLoop blockSize fuel results start = some (s, calls))
    (hin : ∀ c ∈ calls, c.Inside blockSize) :
    (s : Int) = start + bytesRead calls ∧
      (blockSize ≤ s ∨ ∃ n, results n = 0 ∧ (∀ k < n, 0 < results k) ∧
        bytesRead calls = total n results) := by
  induction fuel generalizing results start calls with
  | zero => cases h
  | succ fuel ih =>
    by_cases hs : start < blockSize
    · obtain ⟨rest, rfl, hcases⟩ := readLoop_cases h hs (hr 0)
      have hcall := hin _ List.mem_cons_self
      obtain ⟨hnonneg, hnext⟩ := hcall.next (hr 0) hB
      rw [bytesRead_cons, Int.max_eq_right hnonneg]
      rcases hcases with ⟨h0, rfl, rfl⟩ | ⟨fuel', hfuel, h0, hrest⟩
      · refine ⟨by rw [hnext]; exact congrArg _ (Int.add_zero _).symm, .inr ⟨0, h0, nofun, ?_⟩⟩
        rw [h0]
        rfl
      · cases hfuel
        obtain ⟨hsum, hend⟩ := ih (fun k => hr (k + 1)) hrest
          (fun c hc => hin c (List.mem_cons_of_mem _ hc))
        refine ⟨by omega, hend.imp_right ?_⟩
        rintro ⟨n, hn, hpos, htotal⟩
        refine ⟨n + 1, hn, fun k hk => ?_, by rw [total, htotal]⟩
        cases k with
        | zero => omega
        | succ k => exact hpos k (Nat.lt_of_succ_lt_succ hk)
    · rw [readLoop_of_le (by omega)] at h
      cases h
      exact ⟨(Int.add_zero _).symm, .inl (by omega)⟩

/-- A file that ends while every window still fits. -/
theorem readLoop_of_end (start : Nat) (hB : blockSize < 2 ^ 64) (hlen : 0 ≤ toInt blockSize)
    (hn : results n = 0) (hpos : ∀ k < n, 0 < results k)
    (hfit : start + total n results + toInt blockSize ≤ blockSize) (hs : start < blockSize)
    (hlt : start + total n results < blockSize) :
    ∃ s calls, readLoop blockSize (n + 1) results start = some (s, calls) ∧
      (s : Int) = start + bytesRead calls ∧ bytesRead calls = total n results ∧
      ∀ c ∈ calls, c.Inside blockSize := by
  induction n generalizing results start with
  | zero =>
    have hcall := next_eq start (results 0) (by omega) (by omega)
    have hsize : toSize (results 0) = 0 := by
      have := toSize_of_nonneg (i := results 0) (by omega) (by omega)
      omega
    refine ⟨_, _, (readLoop_of_lt hs).trans (if_pos hsize), ?_, ?_, ?_⟩
    · rw [hcall, bytesRead_cons, hn]
      rfl
    · rw [bytesRead_cons, hn]
      rfl
    · intro c hc
      cases List.mem_singleton.mp hc
      unfold total at hfit
      exact Call.inside hlen (by omega) (by omega)
  | succ n ih =>
    have h0 := hpos 0 (Nat.succ_pos n)
    have hrest : ∀ k < n, 0 < results (k + 1) := fun k hk => hpos (k + 1) (Nat.succ_lt_succ hk)
    have htotal := total_nonneg hrest
    rw [total] at hfit hlt
    have hcall := next_eq start (results 0) (by omega) (by omega)
    have hsize : toSize (results 0) ≠ 0 := by
      have := toSize_of_nonneg (i := results 0) (by omega) (by omega)
      omega
    obtain ⟨s, calls, hloop, hs', hbytes, hin⟩ := @ih (fun k => results (k + 1))
      ((start + toSize (results 0)) % 2 ^ 64) hn hrest (by omega) (by omega) (by omega)
    refine ⟨s, _ :: calls, ((readLoop_of_lt hs).trans (if_neg hsize)).trans
      (congrArg (Option.map _) hloop), ?_, ?_, ?_⟩
    · rw [bytesRead_cons, Int.max_eq_right (Int.le_of_lt h0)]
      omega
    · rw [bytesRead_cons, Int.max_eq_right (Int.le_of_lt h0), hbytes]
      rfl
    · intro c hc
      rcases List.mem_cons.mp hc with rfl | hc
      · exact Call.inside hlen (by omega) (by omega)
      · exact hin c hc

theorem readsInside_of_loop {s : Nat} (hlt : s < 2 ^ 31) (hle : s ≤ blockSize)
    (h : readLoop blockSize fuel results 0 = some (s, calls)) (hs : (s : Int) = bytesRead calls)
    (hin : ∀ c ∈ calls, c.Inside blockSize) : ReadsInside blockSize results :=
  ⟨fuel, toInt s, calls, by rw [readBlock, h]; rfl, hin, by rw [toInt_of_lt hlt, hs],
    by rw [toInt_of_lt hlt]; omega, by rw [toSize_toInt hlt, hs]⟩

theorem readsInside_small (hr : ∀ k, Allowed (toInt blockSize) (results k)) (hpos : 1 ≤ blockSize)
    (hB : blockSize < 2 ^ 31) :
    ReadsInside blockSize results ↔ results 0 = 0 ∨ results 0 = blockSize := by
  have hlen := toInt_of_lt hB
  constructor
  · rintro ⟨fuel, ret, calls, hrun, hin, -⟩
    obtain ⟨⟨s, calls⟩, hloop, heq⟩ := Option.map_eq_some_iff.mp hrun
    cases heq
    obtain ⟨rest, rfl, hcases⟩ := readLoop_cases hloop hpos (hr 0)
    obtain ⟨hnonneg, hnext⟩ := (hin _ List.mem_cons_self).next (hr 0) (by omega)
    rcases hcases with ⟨h0, -⟩ | ⟨fuel', -, h0, hrest⟩
    · exact .inl h0
    · -- a second call starts behind the first and asks for as much
      by_contra hne
      have hle : results 0 ≤ toInt blockSize := (hr 0).resolve_left (by omega) |>.2
      obtain ⟨_, rfl, -⟩ := readLoop_cases hrest (by omega) (hr 1)
      have := (hin _ (List.mem_cons_of_mem _ List.mem_cons_self)).le
      dsimp only at this
      omega
  · rintro (h0 | h0)
    · obtain ⟨s, calls, hloop, hs, hbytes, hin⟩ := readLoop_of_end (n := 0) 0
        (by omega) (by omega) h0 nofun (by rw [hlen, total]; omega) hpos (by rw [total]; omega)
      rw [total] at hbytes
      exact readsInside_of_loop (by omega) (by omega) hloop (by omega) hin
    · have hcall := next_eq 0 (results 0) (by omega) (by omega)
      have hsize := toSize_of_nonneg (i := results 0) (by omega) (by omega)
      have hloop : readLoop blockSize 2 results 0 = some _ :=
        ((readLoop_of_lt hpos).trans (if_neg (by omega))).trans
          (congrArg (Option.map _) (readLoop_of_le (by omega)))
      refine readsInside_of_loop (by omega) (by omega) hloop ?_ ?_
      · rw [bytesRead_cons, Int.max_eq_right (show 0 ≤ results 0 by omega)]
        exact hcall.trans (Int.add_comm _ _)
      · intro c hc
        cases List.mem_singleton.mp hc
        exact Call.inside (by omega) (by omega) (by omega)

/-- **Reading a block.**  Every call of `hdfsRead` stays in the buffer, no error is counted and
the number of bytes read is returned exactly when the size is below `2 ^ 31` and the first
call reads the whole block or nothing, or it is at least `2 ^ 32`, is not negative as an
`int`, and the file ends without an error before `2 ^ 31` bytes. -/
theorem readsInside_iff (blockSize : Nat) (results : Nat → Int) (hpos : 1 ≤ blockSize)
    (hB : blockSize < 2 ^ 64) (hr : ∀ k, Allowed (toInt blockSize) (results k)) :
    ReadsInside blockSize results ↔
      blockSize < 2 ^ 31 ∧ (results 0 = 0 ∨ results 0 = blockSize) ∨
        2 ^ 32 ≤ blockSize ∧ 0 ≤ toInt blockSize ∧ ∃ n, EndsAt results n := by
  have hlt := toInt_lt blockSize
  by_cases hsmall : blockSize < 2 ^ 31
  · rw [readsInside_small hr hpos hsmall]
    exact ⟨fun h => .inl ⟨hsmall, h⟩, fun h => h.elim And.right fun h => by omega⟩
  constructor
  · rintro ⟨fuel, ret, calls, hrun, hin, hret, -, hsize⟩
    obtain ⟨⟨s, calls⟩, hloop, heq⟩ := Option.map_eq_some_iff.mp hrun
    cases heq
    obtain ⟨hs, hend⟩ := readLoop_inside hr hB hloop hin
    obtain ⟨_, rfl, -⟩ := readLoop_cases hloop hpos (hr 0)
    have hnonneg : 0 ≤ toInt blockSize := (hin _ List.mem_cons_self).nonneg
    have hs31 : toInt s < 2 ^ 31 := toInt_lt s
    have hge : 2 ^ 32 ≤ blockSize := by
      by_contra hlt32
      have := toInt_neg (n := blockSize) (by omega) (by omega)
      omega
    dsimp only at hret
    refine .inr ⟨hge, hnonneg, ?_⟩
    rcases hend with hend | ⟨n, hn, hpos', htotal⟩
    · omega
    · exact ⟨n, hn, hpos', by omega⟩
  · rintro (⟨h, -⟩ | ⟨hge, hnonneg, n, hn, hpos', htotal⟩)
    · exact absurd h hsmall
    · have := total_nonneg hpos'
      obtain ⟨s, calls, hloop, hs, hbytes, hin⟩ := readLoop_of_end 0 hB hnonneg hn hpos'
        (by omega) (by omega) (by omega)
      exact readsInside_of_loop (by omega) (by omega) hloop (by omega) hin

theorem readsInside_iff_whole : ReadsInside 4 (fun k => if k = 0 then 4 else 0) := by
  refine (readsInside_iff 4 _ (by decide) (by decide) fun k => ?_).mpr (.inl ⟨by decide, .inr rfl⟩)
  rw [toInt_of_lt (by decide)]
  split
  · exact .inr (by decide)
  · exact .inr (by decide)

/-- A short read, then the rest of the block: the second window `[2, 6)` leaves the buffer.
And an error, which is returned as `-1` and is a `size_t` in `string_ref`. -/
theorem readsInside_short :
    ¬ ReadsInside 4 (fun k => if k < 2 then 2 else 0) ∧ ¬ ReadsInside 4 (fun _ => -1) := by
  constructor
  · rw [readsInside_small (fun k => ?_) (by decide) (by decide)]
    · decide
    · rw [toInt_of_lt (by decide)]
      split
      · exact .inr (by decide)
      · exact .inr (by decide)
  · rw [readsInside_small (fun k => .inl rfl) (by decide) (by decide)]
    decide

end HdfsFile

end Tangram
