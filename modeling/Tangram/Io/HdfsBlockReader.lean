import Tangram.Lib.Lines
import Tangram.Lib.Words

/-!
# Block readers

`HdfsBlockReader` (`io/hdfs_block_reader.cpp`) returns the lines of one block of a
file.  The reader of a later block skips to the first `'\n'` of its block, since the
line before it belongs to the reader of an earlier block; every reader reads past
the end of its block to finish its last line.  `l` and `r` are of type `int` while
positions in a block are of type `size_t`, and `npos` stands for "not found" in both.

What HDFS delivers is given: the block, and then chunks that are not empty and make
up the rest of the file (`Delivers`).  Together the readers return the lines of the
file exactly if each of them finds the `'\n'` it looks for (`BlockOk`).
-/

namespace Tangram

open Lines Words
open List hiding after

abbrev newline : UInt8 := 10

/-- `boost::string_ref::npos`. -/
def npos : Nat := 2 ^ 64 - 1

structure HdfsBlockReader where
  offset : Nat
  l : Int
  r : Int
  lastPart : List UInt8
  buffer : List UInt8
  /-- What the next calls of `hdfsRead` return. -/
  input : List (List UInt8)

namespace HdfsBlockReader

/-! ## Model -/

/-- `Init`; `fetch_new_block` has filled the buffer with the block. -/
def init (offset : Nat) (block : List UInt8) (input : List (List UInt8)) : HdfsBlockReader :=
  { offset, l := 0, r := 0, lastPart := [], buffer := block, input }

/-- `buffer_ = fetch_next()`. -/
def fetchNext (s : HdfsBlockReader) : HdfsBlockReader :=
  match s.input with
  | [] => { s with buffer := [] }
  | chunk :: input => { s with buffer := chunk, input }

def findNext (sref : List UInt8) (l : Nat) (c : UInt8) : Nat :=
  let r := l + (sref.drop l).findIdx (· = c)
  if r = sref.length then npos else r

/-- A turn of the loop of `handle_next_block`, and whether there is another. -/
def handleTurn (s : HdfsBlockReader) : Bool × HdfsBlockReader :=
  if s.buffer = [] then (false, s)
  else
    let r := toInt (findNext s.buffer 0 newline)
    if toSize r = npos then
      (true, fetchNext { s with r, lastPart := s.lastPart ++ s.buffer })
    else (false, { s with r, lastPart := s.lastPart ++ s.buffer.take (toSize r), buffer := [] })

/-- `handle_next_block`.  Every further turn takes a chunk of the input; when there is none left,
the buffer is empty and the turn after it ends the loop. -/
def handleNextBlock (s : HdfsBlockReader) : HdfsBlockReader :=
  loop s.input s
where
  loop : List (List UInt8) → HdfsBlockReader → HdfsBlockReader
  | [], s => (handleTurn s).2
  | _ :: turns, s =>
    match handleTurn s with
    | (true, s) => loop turns s
    | (false, s) => s

/-- The new `l`.  At the start of a file it is behind a `'\n'`; else it is behind the next `'\n'`
from `r` on, which is taken to be there. -/
def lineStart (s : HdfsBlockReader) : Int :=
  if s.offset = 0 ∧ s.r = 0 then (if s.buffer.head? = some newline then 1 else 0)
  else toInt ((findNext s.buffer (toSize s.r) newline + 1) % 2 ^ 64)

/-- `next`: the line it sets `ref` to, if it returns `true`. -/
def next (s : HdfsBlockReader) : Option (List UInt8) × HdfsBlockReader :=
  if s.buffer.length = 0 then (none, s)
  else if toSize s.r = s.buffer.length - 1 then
    -- the last character of the block
    let s := fetchNext s
    if s.buffer = [] then (none, s)
    else
      let s := handleNextBlock { s with lastPart := [] }
      (some s.lastPart, s)
  else
    let l := s.lineStart
    let r := toInt (findNext s.buffer (toSize l) newline)
    if toSize r = npos then
      let s := handleNextBlock (fetchNext { s with l, r, lastPart := s.buffer.drop (toSize l) })
      (some s.lastPart, s)
    else (some ((s.buffer.drop (toSize l)).take (toSize (r - l))), { s with l, r })

/-- `ReadBlock`, with at most so many calls of `next`. -/
def readBlock : Nat → HdfsBlockReader → Option (List (List UInt8))
  | 0, _ => none
  | calls + 1, s =>
    match next s with
    | (none, _) => some []
    | (some line, s) => (readBlock calls s).map (line :: ·)

end HdfsBlockReader

/-- A reader that is used line by line. -/
structure LineReader extends HdfsBlockReader where
  tmpLine : List UInt8
  tmpLineCount : Nat

namespace LineReader

def hasLine (s : LineReader) : Bool × LineReader :=
  match s.next with
  | (none, t) => (false, { s with toHdfsBlockReader := t })
  | (some line, t) => (true, { s with toHdfsBlockReader := t, tmpLine := line })

def getLine (s : LineReader) : List UInt8 × LineReader :=
  (s.tmpLine, { s with tmpLineCount := s.tmpLineCount + 1 })

/-- `while (reader.HasLine()) { .. reader.GetLine() .. }`. -/
def readLines : Nat → LineReader → Option (List (List UInt8))
  | 0, _ => none
  | calls + 1, s =>
    match hasLine s with
    | (false, _) => some []
    | (true, s) => (readLines calls (getLine s).2).map ((getLine s).1 :: ·)

theorem readLines_eq (calls : Nat) (s : LineReader) :
    readLines calls s = s.toHdfsBlockReader.readBlock calls := by
  induction calls generalizing s with
  | zero => rfl
  | succ calls ih =>
    unfold readLines hasLine HdfsBlockReader.readBlock
    cases hn : s.next with
    | mk line t =>
      cases line with
      | none => rfl
      | some line =>
        simp only
        rw [ih]
        rfl

end LineReader

/-! ## Searching a block -/

theorem toSize_npos : toSize (toInt npos) = npos := by decide +kernel

theorem lt_npos {n : Nat} (h : n < 2 ^ 31) : n < npos := by
  unfold npos
  omega

attribute [irreducible] npos

namespace HdfsBlockReader

variable {x y v w t : List UInt8} {s : HdfsBlockReader} {calls : Nat}

theorem findNext_append (hy : newline ∉ y) :
    findNext (x ++ (y ++ newline :: w)) x.length newline = x.length + y.length := by
  have hidx : (y ++ newline :: w).findIdx (· = newline) = y.length := by
    have hskip : y.findIdx (· = newline) = y.length := by
      apply findIdx_eq_length.mpr
      intro c hc
      have hne : c ≠ newline := fun he => hy (he ▸ hc)
      exact decide_eq_false hne
    rw [findIdx_append, hskip, if_neg (Nat.lt_irrefl _), findIdx_cons]
    simp
  unfold findNext
  rw [drop_left, hidx]
  apply if_neg
  rw [length_append, length_append, length_cons]
  omega

theorem findNext_none (hy : newline ∉ y) : findNext (x ++ y) x.length newline = npos := by
  have hidx : y.findIdx (· = newline) = y.length := by
    apply findIdx_eq_length.mpr
    intro c hc
    have hne : c ≠ newline := fun he => hy (he ▸ hc)
    exact decide_eq_false hne
  unfold findNext
  rw [drop_left, hidx]
  apply if_pos
  rw [length_append]

/-- A text has no `'\n'`, or a first one. -/
theorem newline_cases (v : List UInt8) :
    newline ∉ v ∨ ∃ y w, newline ∉ y ∧ v = y ++ newline :: w := by
  by_cases h : newline ∈ v
  · obtain ⟨y, w, hv, hy⟩ := eq_append_cons_of_mem h
    exact .inr ⟨y, w, hy, hv⟩
  · exact .inl h

/-! ## Reading past the block -/

/-- Chunks that `hdfsRead` may return, which make up `t`. -/
structure Chunks (input : List (List UInt8)) (t : List UInt8) : Prop where
  ne : ∀ c ∈ input, c ≠ []
  small : ∀ c ∈ input, c.length < 2 ^ 31
  flatten : input.flatten = t

/-- A chunk without `'\n'`. -/
theorem handleTurn_of_not_mem (hb : s.buffer ≠ []) (hnl : newline ∉ s.buffer) :
    handleTurn s =
      (true, fetchNext { s with r := toInt npos, lastPart := s.lastPart ++ s.buffer }) := by
  have hfind : findNext s.buffer 0 newline = npos := findNext_none (x := []) hnl
  rw [handleTurn, if_neg hb, hfind]
  exact if_pos toSize_npos

/-- A chunk with a first `'\n'`. -/
theorem handleTurn_of_split (hy : newline ∉ y) (hsplit : s.buffer = y ++ newline :: w)
    (hbuf : s.buffer.length < 2 ^ 31) :
    handleTurn s =
      (false, { s with r := toInt y.length, lastPart := s.lastPart ++ y, buffer := [] }) := by
  have hb : s.buffer ≠ [] := by
    rw [hsplit]
    simp
  have hfind : findNext s.buffer 0 newline = y.length := by
    have := findNext_append (x := []) (w := w) hy
    rwa [nil_append, length_nil, Nat.zero_add, ← hsplit] at this
  have hlt : y.length < 2 ^ 31 := by
    rw [hsplit, length_append] at hbuf
    omega
  have hnpos : toSize (toInt y.length) ≠ npos := by
    rw [toSize_toInt hlt]
    exact Nat.ne_of_lt (lt_npos hlt)
  have htake : s.buffer.take (toSize (toInt y.length)) = y := by
    rw [toSize_toInt hlt, hsplit, take_left]
  rw [handleTurn, if_neg hb, hfind]
  refine (if_neg hnpos).trans ?_
  rw [htake]

/-- The line is finished with the first line of what follows, and nothing is left to do. -/
theorem loop_spec (input : List (List UInt8)) (hin : s.input = input) (hne : ∀ c ∈ input, c ≠ [])
    (hsmall : ∀ c ∈ input, c.length < 2 ^ 31) (hbuf : s.buffer.length < 2 ^ 31) (hb : s.buffer ≠ []) :
    (handleNextBlock.loop input s).lastPart =
        s.lastPart ++ firstLine newline (s.buffer ++ input.flatten) ∧
      (handleNextBlock.loop input s).buffer = [] := by
  induction input generalizing s with
  | nil =>
    rcases newline_cases s.buffer with hnl | ⟨y, w, hy, hsplit⟩
    · rw [handleNextBlock.loop, handleTurn_of_not_mem hb hnl, firstLine_append hnl]
      simp [fetchNext, hin, firstLine]
    · rw [handleNextBlock.loop, handleTurn_of_split hy hsplit hbuf, hsplit, append_assoc,
        cons_append, firstLine_append_sep hy]
      exact ⟨rfl, rfl⟩
  | cons c input ih =>
    rcases newline_cases s.buffer with hnl | ⟨y, w, hy, hsplit⟩
    · rw [handleNextBlock.loop, handleTurn_of_not_mem hb hnl, flatten_cons,
        firstLine_append hnl]
      have hfetch : fetchNext { s with r := toInt npos, lastPart := s.lastPart ++ s.buffer } =
          { s with r := toInt npos, lastPart := s.lastPart ++ s.buffer, buffer := c, input } := by
        simp only [fetchNext, hin]
      simp only [hfetch]
      obtain ⟨hlast, hempty⟩ := ih
        (s := { s with r := toInt npos, lastPart := s.lastPart ++ s.buffer, buffer := c, input })
        rfl (fun c' hc' => hne c' (mem_cons_of_mem _ hc'))
        (fun c' hc' => hsmall c' (mem_cons_of_mem _ hc')) (hsmall c mem_cons_self)
        (hne c mem_cons_self)
      exact ⟨hlast.trans (append_assoc _ _ _), hempty⟩
    · rw [handleNextBlock.loop, handleTurn_of_split hy hsplit hbuf, hsplit, append_assoc,
        cons_append, firstLine_append_sep hy]
      exact ⟨rfl, rfl⟩

theorem handle_fetchNext (hc : Chunks s.input t) :
    (handleNextBlock (fetchNext s)).lastPart = s.lastPart ++ firstLine newline t ∧
      (handleNextBlock (fetchNext s)).buffer = [] := by
  obtain ⟨hne, hsmall, rfl⟩ := hc
  cases hin : s.input with
  | nil =>
    have hfetch : fetchNext s = { s with buffer := [] } := by simp only [fetchNext, hin]
    rw [hfetch, handleNextBlock, hin, handleNextBlock.loop, handleTurn, if_pos rfl]
    simp [firstLine]
  | cons c input =>
    have hfetch : fetchNext s = { s with buffer := c, input } := by simp only [fetchNext, hin]
    rw [hin] at hne hsmall
    rw [hfetch]
    exact loop_spec input rfl (fun c' hc' => hne c' (mem_cons_of_mem _ hc'))
      (fun c' hc' => hsmall c' (mem_cons_of_mem _ hc')) (hsmall c mem_cons_self)
      (hne c mem_cons_self)

theorem readBlock_of_empty (h : s.buffer = []) (hn : 1 ≤ calls) : readBlock calls s = some [] := by
  obtain ⟨n, rfl⟩ : ∃ n, calls = n + 1 := ⟨calls - 1, by omega⟩
  rw [readBlock, next, if_pos (by rw [h]; rfl)]

/-! ## Reading a block -/

/-- At the last character of the block. -/
theorem readBlock_of_last (hb : s.buffer ≠ []) (hr : toSize s.r = s.buffer.length - 1)
    (hc : Chunks s.input t) (hn : 2 ≤ calls) :
    readBlock calls s = some (if t = [] then [] else [firstLine newline t]) := by
  obtain ⟨n, rfl⟩ : ∃ n, calls = n + 1 := ⟨calls - 1, by omega⟩
  have hlen : s.buffer.length ≠ 0 := fun h => hb (length_eq_zero_iff.mp h)
  rw [readBlock, next, if_neg hlen, if_pos hr]
  cases hin : s.input with
  | nil =>
    have ht : t = [] := by rw [← hc.flatten, hin]; rfl
    have hfetch : fetchNext s = { s with buffer := [] } := by simp only [fetchNext, hin]
    rw [hfetch, if_pos ht, if_pos rfl]
  | cons c input =>
    have hcne : c ≠ [] := hc.ne c (by rw [hin]; exact mem_cons_self)
    have ht : t ≠ [] := by
      rw [← hc.flatten, hin, flatten_cons]
      exact fun h => hcne (append_eq_nil_iff.mp h).1
    have hfetch : fetchNext s = { s with buffer := c, input } := by simp only [fetchNext, hin]
    have hswap : { fetchNext s with lastPart := [] } = fetchNext { s with lastPart := [] } := by
      simp only [fetchNext, hin]
    obtain ⟨hlast, hempty⟩ := handle_fetchNext (s := { s with lastPart := [] }) (t := t) hc
    rw [if_neg ht, if_neg (by rw [hfetch]; exact hcne), hswap]
    show (readBlock n (handleNextBlock (fetchNext { s with lastPart := [] }))).map _ = _
    rw [readBlock_of_empty hempty (by omega), hlast]
    rfl

/-- Between two lines: `r` is at a `'\n'` of the block, with `v` behind it. -/
structure At (s : HdfsBlockReader) (x v t : List UInt8) : Prop where
  buffer : s.buffer = x ++ newline :: v
  r : s.r = x.length
  start : s.offset ≠ 0 ∨ x ≠ []
  small : s.buffer.length < 2 ^ 31
  input : Chunks s.input t

/-- What is left to return there, if less than `n` characters are left. -/
def Steady (n : Nat) : Prop :=
  ∀ {s : HdfsBlockReader} {x v t : List UInt8}, At s x v t → v.length < n →
    ∀ calls, v.length + 2 ≤ calls → readBlock calls s = some (after newline (newline :: v) t)

section Search

variable {s : HdfsBlockReader} (hbuf : s.buffer = x ++ v) (hb : s.buffer ≠ [])
  (hr : toSize s.r ≠ s.buffer.length - 1) (hl : s.lineStart = x.length)
  (hsmall : s.buffer.length < 2 ^ 31)

include hbuf hb hr hl hsmall

/-- A line that goes on behind the block. -/
theorem next_of_not_mem (hc : Chunks s.input t) (hnl : newline ∉ v) :
    ∃ s', next s = (some (v ++ firstLine newline t), s') ∧ s'.buffer = [] := by
  have hlen : s.buffer.length ≠ 0 := fun h => hb (length_eq_zero_iff.mp h)
  have hlsize : toSize s.lineStart = x.length := by
    rw [hl]
    apply toSize_ofNat
    rw [hbuf, length_append] at hsmall
    omega
  have hfind : findNext s.buffer (toSize s.lineStart) newline = npos := by
    rw [hlsize, hbuf]
    exact findNext_none hnl
  have hdrop : s.buffer.drop (toSize s.lineStart) = v := by
    rw [hlsize, hbuf, drop_left]
  obtain ⟨hlast, hempty⟩ := handle_fetchNext
    (s := { s with l := s.lineStart, r := toInt npos, lastPart := v }) (t := t) hc
  refine ⟨_, ?_, hempty⟩
  rw [← hlast, next, if_neg hlen, if_neg hr]
  simp only [hfind, hdrop]
  exact if_pos toSize_npos

/-- A line that ends in the block. -/
theorem next_of_split (hy : newline ∉ y) (hsplit : v = y ++ newline :: w) :
    next s = (some y, { s with l := s.lineStart, r := toInt (x.length + y.length) }) := by
  have hlen : s.buffer.length ≠ 0 := fun h => hb (length_eq_zero_iff.mp h)
  have hrlt : x.length + y.length < 2 ^ 31 := by
    rw [hbuf, hsplit, length_append, length_append] at hsmall
    omega
  have hlsize : toSize s.lineStart = x.length := by
    rw [hl]
    exact toSize_ofNat (by omega)
  have hfind : findNext s.buffer (toSize s.lineStart) newline = x.length + y.length := by
    rw [hlsize, hbuf, hsplit]
    exact findNext_append hy
  have hnpos : toSize (toInt (x.length + y.length)) ≠ npos := by
    rw [toSize_toInt hrlt]
    exact Nat.ne_of_lt (lt_npos hrlt)
  have hwidth : toSize (toInt (x.length + y.length) - s.lineStart) = y.length := by
    rw [toInt_of_lt hrlt, hl]
    unfold toSize
    omega
  have hline : (s.buffer.drop (toSize s.lineStart)).take
      (toSize (toInt (x.length + y.length) - s.lineStart)) = y := by
    rw [hwidth, hlsize, hbuf, drop_left, hsplit, take_left]
  rw [next, if_neg hlen, if_neg hr]
  simp only [hfind, hline]
  exact if_neg hnpos

/-- A line that starts at `x.length` and what is left behind it. -/
theorem readBlock_search (hc : Chunks s.input t)
    (hstart : s.offset ≠ 0 ∨ ∀ y w, v = y ++ newline :: w → x ++ y ≠ []) (hsteady : Steady v.length)
    (hn : v.length + 2 ≤ calls) :
    readBlock calls s = some (firstLine newline (v ++ t) :: after newline v t) := by
  obtain ⟨n, rfl⟩ : ∃ n, calls = n + 1 := ⟨calls - 1, by omega⟩
  rcases newline_cases v with hnl | ⟨y, w, hy, hsplit⟩
  · obtain ⟨s', hnext, hempty⟩ := next_of_not_mem hbuf hb hr hl hsmall hc hnl
    rw [readBlock, hnext, firstLine_append hnl, after_of_not_mem hnl]
    show (readBlock n s').map _ = _
    rw [readBlock_of_empty hempty (by omega)]
    rfl
  · have hvlen : v.length = y.length + (w.length + 1) := by
      rw [hsplit, length_append, length_cons]
    have hrlt : x.length + y.length < 2 ^ 31 := by
      rw [hbuf, length_append] at hsmall
      omega
    have hat : At { s with l := s.lineStart, r := toInt (x.length + y.length) } (x ++ y) w t := by
      constructor
      · rw [hbuf, hsplit, append_assoc]
      · rw [toInt_of_lt hrlt, length_append]
      · exact hstart.imp id fun h => h y w hsplit
      · exact hsmall
      · exact hc
    rw [readBlock, next_of_split hbuf hb hr hl hsmall hy hsplit]
    show (readBlock n _).map _ = _
    rw [hsteady hat (by omega) n (by omega), hsplit, append_assoc, cons_append,
      firstLine_append_sep hy, after_append_sep hy]
    rfl

end Search

theorem steady (n : Nat) : Steady n := by
  induction n with
  | zero => exact fun _ h => absurd h (Nat.not_lt_zero _)
  | succ n ih =>
    intro s x v t h hv calls hn
    have hlen : s.buffer.length = x.length + (v.length + 1) := by
      rw [h.buffer, length_append, length_cons]
    have hsmall := h.small
    have hrsize : toSize s.r = x.length := by
      rw [h.r]
      exact toSize_ofNat (by omega)
    have hb : s.buffer ≠ [] := by
      intro hnil
      rw [hnil, length_nil] at hlen
      omega
    by_cases hvnil : v = []
    · subst hvnil
      rw [length_nil] at hlen hn
      rw [readBlock_of_last hb (by omega) h.input (by omega)]
      by_cases ht : t = []
      · simp [ht, after]
      · simp [ht, after]
    · have hpos : 0 < v.length := length_pos_iff.mpr hvnil
      have hl : s.lineStart = ((x ++ [newline]).length : Nat) := by
        have hnot : ¬ (s.offset = 0 ∧ s.r = 0) := by
          rintro ⟨hoff, hr⟩
          rcases h.start with hs | hx
          · exact hs hoff
          · rw [h.r] at hr
            exact hx (length_eq_zero_iff.mp (by omega))
        have hfind : findNext s.buffer (toSize s.r) newline = x.length := by
          rw [hrsize, h.buffer]
          exact findNext_append (y := []) not_mem_nil
        rw [lineStart, if_neg hnot, hfind, Nat.mod_eq_of_lt (by omega), toInt_of_lt (by omega),
          length_append, length_singleton]
      have hrest : v ++ t ≠ [] := fun hnil => hvnil (append_eq_nil_iff.mp hnil).1
      rw [readBlock_search (x := x ++ [newline]) (v := v) (t := t) ?_ hb (by omega) hl hsmall h.input
        (.inr ?_) ?_ hn, after_sep hrest]
      · rw [h.buffer, append_assoc]
        rfl
      · intro y w _ hnil
        simp at hnil
      · exact fun h' hlt => ih h' (by omega)

/-! ## The lines of a block -/

/-- The reader of block `b` at offset `k`, with `t` behind it, finds the `'\n'` it looks for. -/
def BlockOk (k : Nat) (b t : List UInt8) : Prop :=
  if k = 0 then b.length = 1 → b = [newline]
  else if t = [] then b.length = 1 ∨ newline ∈ b.dropLast
  else newline ∈ b

instance (k : Nat) (b t : List UInt8) : Decidable (BlockOk k b t) :=
  inferInstanceAs (Decidable (ite _ _ _))

/-- The lines that start in the block, where the start of the block does not count, except for
the first line of the file if that is not empty. -/
def ownLines (k : Nat) (b t : List UInt8) : List (List UInt8) :=
  (if k = 0 ∧ b.head? ≠ some newline then [firstLine newline (b ++ t)] else []) ++ after newline b t

section Block

variable {k : Nat} {b : List UInt8} {input : List (List UInt8)} {calls : Nat}

theorem readBlock_single (hc : Chunks input t) (c : UInt8) (hn : 3 ≤ calls) :
    readBlock calls (init k [c] input) = some (if t = [] then [] else [firstLine newline t]) := by
  have hlast : toSize (init k [c] input).r = (init k [c] input).buffer.length - 1 :=
    toSize_ofNat (n := 0) (by omega)
  exact readBlock_of_last (cons_ne_nil c []) hlast hc (by omega)

theorem toSize_init_ne (hlen : 2 ≤ b.length) :
    toSize (init k b input).r ≠ (init k b input).buffer.length - 1 := by
  have hzero : toSize (init k b input).r = 0 := toSize_ofNat (n := 0) (by omega)
  rw [hzero]
  show 0 ≠ b.length - 1
  omega

/-- The first block of a file. -/
theorem readBlock_first (hc : Chunks input t) (hlen : 2 ≤ b.length) (hsmall : b.length < 2 ^ 31)
    (hn : b.length + 2 ≤ calls) : readBlock calls (init 0 b input) = some (ownLines 0 b t) := by
  obtain ⟨c, v, rfl⟩ := exists_cons_of_length_pos (show 0 < b.length by omega)
  rw [length_cons] at hlen hn
  have hne : (init 0 (c :: v) input).buffer ≠ [] := cons_ne_nil c v
  by_cases hhead : c = newline
  · subst hhead
    have hl : (init 0 (newline :: v) input).lineStart = ([newline].length : Nat) := by
      rw [lineStart, if_pos ⟨rfl, rfl⟩]
      rfl
    have hv : v ++ t ≠ [] := by
      intro hnil
      rw [(append_eq_nil_iff.mp hnil).1, length_nil] at hlen
      omega
    rw [readBlock_search (x := [newline]) (v := v) (t := t) rfl hne (toSize_init_ne hlen) hl hsmall
      hc (.inr fun y w _ => cons_ne_nil _ _) (steady _) (by omega)]
    rw [ownLines, if_neg (by simp), after_sep hv]
    rfl
  · have hhead' : (c :: v).head? ≠ some newline := fun h => hhead (Option.some.inj h)
    have hl : (init 0 (c :: v) input).lineStart = (([] : List UInt8).length : Nat) := by
      rw [lineStart, if_pos ⟨rfl, rfl⟩]
      exact if_neg hhead'
    have hstart : ∀ y w, c :: v = y ++ newline :: w → [] ++ y ≠ [] := by
      rintro y w hsplit hnil
      rw [nil_append] at hnil
      subst hnil
      exact hhead (List.cons.inj hsplit).1
    rw [readBlock_search (x := []) (v := c :: v) (t := t) rfl hne (toSize_init_ne hlen) hl hsmall hc
      (.inr hstart) (steady _) (by rw [length_cons]; omega)]
    rw [ownLines, if_pos ⟨rfl, hhead'⟩]
    rfl

/-- A later block with a first `'\n'`: the reader starts behind it. -/
theorem readBlock_later (hk : k ≠ 0) (hc : Chunks input t) (hy : newline ∉ y)
    (hsplit : b = y ++ newline :: v) (hlen : 2 ≤ b.length) (hsmall : b.length < 2 ^ 31)
    (hn : b.length + 2 ≤ calls) :
    readBlock calls (init k b input) = some (firstLine newline (v ++ t) :: after newline v t) := by
  have hblen : b.length = y.length + (v.length + 1) := by
    rw [hsplit, length_append, length_cons]
  have hne : (init k b input).buffer ≠ [] := by
    show b ≠ []
    rw [hsplit]
    simp
  have hzero : toSize (init k b input).r = 0 := toSize_ofNat (n := 0) (by omega)
  have hfind : findNext (init k b input).buffer 0 newline = y.length := by
    have := findNext_append (x := []) (w := v) hy
    rw [nil_append, length_nil, Nat.zero_add] at this
    rw [← this, ← hsplit]
    rfl
  have hl : (init k b input).lineStart = ((y ++ [newline]).length : Nat) := by
    rw [lineStart, if_neg fun h => hk h.1, hzero, hfind, Nat.mod_eq_of_lt (by omega),
      toInt_of_lt (by omega), length_append, length_singleton]
  have hbuf : (init k b input).buffer = (y ++ [newline]) ++ v := by
    show b = _
    rw [hsplit, append_assoc]
    rfl
  exact readBlock_search hbuf hne (toSize_init_ne hlen) hl hsmall hc (.inl hk) (steady _)
    (by omega)

/-- A later block without `'\n'`: `npos + 1` is 0, and the whole block is taken for the start of
a line. -/
theorem readBlock_noNewline (hk : k ≠ 0) (hc : Chunks input t) (hnl : newline ∉ b)
    (hlen : 2 ≤ b.length) (hsmall : b.length < 2 ^ 31) (hn : b.length + 2 ≤ calls) :
    readBlock calls (init k b input) = some [firstLine newline (b ++ t)] := by
  have hne : (init k b input).buffer ≠ [] := by
    rintro (rfl : b = [])
    rw [length_nil] at hlen
    omega
  have hzero : toSize (init k b input).r = 0 := toSize_ofNat (n := 0) (by omega)
  have hfind : findNext (init k b input).buffer 0 newline = npos := findNext_none (x := []) hnl
  have hl : (init k b input).lineStart = (([] : List UInt8).length : Nat) := by
    rw [lineStart, if_neg fun h => hk h.1, hzero, hfind]
    decide +kernel
  rw [readBlock_search (x := []) (v := b) (t := t) rfl hne (toSize_init_ne hlen) hl hsmall hc
    (.inl hk) (steady _) hn, after_of_not_mem hnl]

/-- **A reader that finds its `'\n'`** returns the lines of its block. -/
theorem readBlock_ok (hc : Chunks input t) (hb : b ≠ []) (hsmall : b.length < 2 ^ 31)
    (hn : b.length + 2 ≤ calls) (hok : BlockOk k b t) :
    readBlock calls (init k b input) = some (ownLines k b t) := by
  have hpos : 0 < b.length := length_pos_iff.mpr hb
  by_cases hone : b.length = 1
  · obtain ⟨c, rfl⟩ := length_eq_one_iff.mp hone
    rw [readBlock_single hc c (by rw [length_singleton] at hn; omega)]
    unfold BlockOk at hok
    by_cases hk : k = 0
    · rw [if_pos hk] at hok
      cases List.cons.inj (hok hone) |>.1
      by_cases ht : t = [] <;> simp [ownLines, after, ht]
    · rw [if_neg hk] at hok
      by_cases ht : t = []
      · simp [ownLines, after, ht, hk]
      · rw [if_neg ht] at hok
        cases mem_singleton.mp hok
        simp [ownLines, after, ht, hk]
  · by_cases hk : k = 0
    · subst hk
      exact readBlock_first hc (by omega) hsmall hn
    · unfold BlockOk at hok
      rw [if_neg hk] at hok
      have hmem : newline ∈ b := by
        by_cases ht : t = []
        · rw [if_pos ht] at hok
          exact (dropLast_sublist b).subset (hok.resolve_left hone)
        · rwa [if_neg ht] at hok
      obtain ⟨y, v, hsplit, hy⟩ := eq_append_cons_of_mem hmem
      rw [readBlock_later hk hc hy hsplit (by omega) hsmall hn, ownLines, if_neg fun h => hk h.1,
        hsplit, after_append_sep hy, after_sep]
      · rfl
      · -- if nothing follows, the first newline is not the last character
        intro hnil
        obtain ⟨rfl, ht⟩ := append_eq_nil_iff.mp hnil
        rw [if_pos ht, hsplit, dropLast_concat] at hok
        exact hy (hok.resolve_left (by rw [← hsplit]; exact hone))

/-- **A later reader that does not find it** returns one line, where none starts in its block. -/
theorem readBlock_extra (hk : k ≠ 0) (hc : Chunks input t) (hb : b ≠ []) (hsmall : b.length < 2 ^ 31)
    (hn : b.length + 2 ≤ calls) (hbad : ¬ BlockOk k b t) :
    ownLines k b t = [] ∧ ∃ line, readBlock calls (init k b input) = some [line] := by
  have hpos : 0 < b.length := length_pos_iff.mpr hb
  unfold BlockOk at hbad
  rw [if_neg hk] at hbad
  have hown : ownLines k b t = after newline b t := by
    rw [ownLines, if_neg fun h => hk h.1]
    rfl
  by_cases ht : t = []
  · rw [if_pos ht, not_or] at hbad
    obtain ⟨hone, hdrop⟩ := hbad
    by_cases hmem : newline ∈ b
    · obtain ⟨y, v, hsplit, hy⟩ := eq_append_cons_of_mem hmem
      have hv : v = [] := by
        by_contra hv
        apply hdrop
        rw [hsplit, dropLast_append_of_ne_nil (cons_ne_nil _ _),
          dropLast_cons_of_ne_nil hv]
        exact mem_append_right _ mem_cons_self
      subst hv ht
      refine ⟨?_, _, readBlock_later hk hc hy hsplit (by omega) hsmall hn⟩
      rw [hown, hsplit, after_append_sep hy]
      rfl
    · exact ⟨hown.trans (after_of_not_mem hmem t), _,
        readBlock_noNewline hk hc hmem (by omega) hsmall hn⟩
  · rw [if_neg ht] at hbad
    refine ⟨hown.trans (after_of_not_mem hbad t), ?_⟩
    by_cases hone : b.length = 1
    · obtain ⟨c, rfl⟩ := length_eq_one_iff.mp hone
      rw [readBlock_single hc c (by rw [length_singleton] at hn; omega), if_neg ht]
      exact ⟨_, rfl⟩
    · exact ⟨_, readBlock_noNewline hk hc hbad (by omega) hsmall hn⟩

end Block

end HdfsBlockReader

/-! ## Files -/

/-- The offsets of `HDFSBrowser::Browse`: `while (k < size) { ..; k += blockSize; }`, for at most
so many turns. -/
def offsetsFrom (size blockSize : Nat) : Nat → Nat → List Nat
  | 0, _ => []
  | turns + 1, k =>
    if k < size then k :: offsetsFrom size blockSize turns (k + blockSize) else []

/-- As every turn counts on by at least one, `size` turns are enough. -/
def offsets (size blockSize : Nat) : List Nat := offsetsFrom size blockSize size 0

/-- The lines of a file, without the empty line before a leading `'\n'`. -/
def fileLines (file : List UInt8) : List (List UInt8) :=
  if file.head? = some newline then (lines newline file).tail else lines newline file

section File

variable (blockSize : Nat) (file : List UInt8) (chunks : Nat → List (List UInt8))

/-- The block at an offset. -/
abbrev blockAt (k : Nat) : List UInt8 := (file.drop k).take blockSize

/-- What is behind it. -/
abbrev restAt (k : Nat) : List UInt8 := file.drop (k + blockSize)

def reader (k : Nat) : HdfsBlockReader := .init k (blockAt blockSize file k) (chunks k)

/-- The lines of `ReadBlock` of all readers, with at most so many calls of `next` for each. -/
def readFile (calls : Nat) : Option (List (List UInt8)) :=
  ((offsets file.length blockSize).mapM fun k =>
    (reader blockSize file chunks k).readBlock calls).map List.flatten

/-- The same with `HasLine` and `GetLine`. -/
def readFileByLine (calls : Nat) : Option (List (List UInt8)) :=
  ((offsets file.length blockSize).mapM fun k =>
    LineReader.readLines calls ⟨reader blockSize file chunks k, [], 0⟩).map List.flatten

/-- After the block at `k`, `fetch_next` delivers the rest of the file in chunks. -/
def Delivers : Prop :=
  ∀ k, (∀ c ∈ chunks k, c ≠ [] ∧ c.length ≤ blockSize) ∧
    (chunks k).flatten = restAt blockSize file k

/-- Every reader finds the `'\n'` it looks for. -/
def FileOk : Prop :=
  ∀ k ∈ offsets file.length blockSize,
    HdfsBlockReader.BlockOk k (blockAt blockSize file k) (restAt blockSize file k)

instance : Decidable (FileOk blockSize file) :=
  inferInstanceAs (Decidable (∀ k ∈ offsets file.length blockSize, _))

end File

section File

variable {blockSize : Nat} {file : List UInt8} {chunks : Nat → List (List UInt8)}

open HdfsBlockReader

theorem lt_of_mem_offsetsFrom {size turns k j : Nat} (h : j ∈ offsetsFrom size blockSize turns k) :
    k ≤ j ∧ j < size := by
  induction turns generalizing k with
  | zero => exact absurd h not_mem_nil
  | succ turns ih =>
    rw [offsetsFrom] at h
    split at h
    · next hk =>
      rcases mem_cons.mp h with rfl | h
      · exact ⟨Nat.le_refl _, hk⟩
      · obtain ⟨hle, hlt⟩ := ih h
        exact ⟨by omega, hlt⟩
    · exact absurd h not_mem_nil

/-- The first block and the others. -/
theorem offsets_eq (blockSize : Nat) (hfile : file ≠ []) : ∃ ks, offsets file.length blockSize = 0 :: ks ∧
    ks = offsetsFrom file.length blockSize (file.length - 1) blockSize := by
  obtain ⟨c, rest, rfl⟩ := exists_cons_of_ne_nil hfile
  refine ⟨_, ?_, rfl⟩
  rw [offsets, length_cons, offsetsFrom, if_pos (Nat.zero_lt_succ _), Nat.zero_add]
  rfl

/-- The lines that the reader at `k` should return. -/
abbrev ownAt (blockSize : Nat) (file : List UInt8) (k : Nat) : List (List UInt8) :=
  ownLines k (blockAt blockSize file k) (restAt blockSize file k)

theorem drop_eq_append (file : List UInt8) (blockSize k : Nat) :
    file.drop k = blockAt blockSize file k ++ restAt blockSize file k := by
  rw [restAt, ← drop_drop, take_append_drop]

/-- The lines behind a `'\n'` in the file, block by block. -/
theorem flatMap_after (hB : 0 < blockSize) (turns k : Nat) (hturns : file.length ≤ turns + k) :
    (offsetsFrom file.length blockSize turns k).flatMap
        (fun k => after newline (blockAt blockSize file k) (restAt blockSize file k)) =
      after newline (file.drop k) [] := by
  induction turns generalizing k with
  | zero =>
    rw [drop_eq_nil_of_le (by omega)]
    rfl
  | succ turns ih =>
    rw [offsetsFrom]
    split
    · rw [flatMap_cons, ih (k + blockSize) (by omega), drop_eq_append file blockSize k,
        after_append, append_nil]
    · rw [drop_eq_nil_of_le (by omega)]
      rfl

theorem flatMap_ownAt (hB : 0 < blockSize) :
    (offsets file.length blockSize).flatMap (ownAt blockSize file) = fileLines file := by
  by_cases hfile : file = []
  · subst hfile
    rfl
  obtain ⟨ks, hks, hrest⟩ := offsets_eq blockSize hfile
  have hlater : ks.flatMap (ownAt blockSize file) = after newline (file.drop blockSize) [] := by
    rw [← flatMap_after hB (file.length - 1) blockSize (by omega), ← hrest]
    refine flatMap_congr fun k hk => ?_
    rw [hrest] at hk
    have hpos := (lt_of_mem_offsetsFrom hk).1
    rw [ownAt, ownLines, if_neg fun h => by omega]
    rfl
  have hfirst : ownAt blockSize file 0 =
      (if file.head? ≠ some newline then [firstLine newline file] else []) ++
        after newline (file.take blockSize) (file.drop blockSize) := by
    obtain ⟨c, rest, rfl⟩ := exists_cons_of_ne_nil hfile
    obtain ⟨n, rfl⟩ : ∃ n, blockSize = n + 1 := ⟨blockSize - 1, by omega⟩
    rw [ownAt, ownLines, ← drop_eq_append, restAt, blockAt, Nat.zero_add, drop_zero]
    simp
  have hwhole : after newline (file.take blockSize ++ file.drop blockSize) [] = _ :=
    after_append (file.take blockSize) (file.drop blockSize) []
  rw [take_append_drop, append_nil] at hwhole
  rw [hks, flatMap_cons, hlater, hfirst, append_assoc, ← hwhole, fileLines, lines_eq,
    if_neg hfile]
  by_cases hhead : file.head? = some newline
  · simp [hhead]
  · simp [hhead]

/-- Lists that are at least as long as others, and together as long, are each as long. -/
theorem length_eq_of_flatMap {β γ : Type} {f g : γ → List β} {l : List γ}
    (hle : ∀ k ∈ l, (g k).length ≤ (f k).length) :
    (l.flatMap g).length ≤ (l.flatMap f).length ∧
      ((l.flatMap f).length = (l.flatMap g).length → ∀ k ∈ l, (f k).length = (g k).length) := by
  induction l with
  | nil => exact ⟨Nat.le_refl 0, fun _ k hk => absurd hk not_mem_nil⟩
  | cons j l ih =>
    obtain ⟨hsum, heach⟩ := ih fun k hk => hle k (mem_cons_of_mem _ hk)
    have hj := hle j mem_cons_self
    rw [flatMap_cons, flatMap_cons, length_append, length_append]
    refine ⟨by omega, fun heq k hk => ?_⟩
    rcases mem_cons.mp hk with rfl | hk
    · omega
    · exact heach (by omega) k hk

theorem mapM_eq_some {β γ : Type} {f : γ → Option β} {g : γ → β} {l : List γ}
    (h : ∀ k ∈ l, f k = some (g k)) : l.mapM f = some (l.map g) := by
  induction l with
  | nil => rfl
  | cons k l ih =>
    rw [mapM_cons, h k mem_cons_self, ih fun j hj => h j (mem_cons_of_mem _ hj)]
    rfl

/-- The lines of the reader at `k`. -/
def returned (blockSize : Nat) (file : List UInt8) (chunks : Nat → List (List UInt8))
    (calls k : Nat) : List (List UInt8) :=
  ((reader blockSize file chunks k).readBlock calls).getD []

section Readers

variable (hB : 0 < blockSize) (hsz : min blockSize file.length < 2 ^ 31)
  (hch : Delivers blockSize file chunks)

include hsz hch in
theorem chunks_at (k : Nat) : Chunks (chunks k) (restAt blockSize file k) := by
  obtain ⟨hne, hflat⟩ := hch k
  refine ⟨fun c hc => (hne c hc).1, fun c hc => ?_, hflat⟩
  have hle := (hne c hc).2
  have hlen : c.length ≤ (chunks k).flatten.length := (sublist_flatten_of_mem hc).length_le
  rw [hflat, restAt, length_drop] at hlen
  omega

include hB hsz in
theorem blockAt_bounds {k : Nat} (hk : k < file.length) :
    blockAt blockSize file k ≠ [] ∧ (blockAt blockSize file k).length < 2 ^ 31 ∧
      (blockAt blockSize file k).length ≤ file.length := by
  have hlen : (blockAt blockSize file k).length = min blockSize (file.length - k) := by
    rw [blockAt, length_take, length_drop]
  refine ⟨fun hnil => ?_, by omega, by omega⟩
  rw [hnil, length_nil] at hlen
  omega

include hB hsz hch

variable {calls : Nat} (hn : file.length + 2 ≤ calls) {k : Nat} (hk : k < file.length)

include hn hk

theorem returned_of_ok (hok : BlockOk k (blockAt blockSize file k) (restAt blockSize file k)) :
    (reader blockSize file chunks k).readBlock calls =
        some (returned blockSize file chunks calls k) ∧
      returned blockSize file chunks calls k = ownAt blockSize file k := by
  obtain ⟨hb, hsmall, hle⟩ := blockAt_bounds hB hsz hk
  unfold returned reader
  rw [readBlock_ok (chunks_at hsz hch k) hb hsmall (by omega) hok]
  exact ⟨rfl, rfl⟩

/-- Otherwise the first reader loses a line or the first character of it, and any other one
returns a line where it should return none. -/
theorem returned_of_not_ok
    (hbad : ¬ BlockOk k (blockAt blockSize file k) (restAt blockSize file k)) :
    (reader blockSize file chunks k).readBlock calls =
        some (returned blockSize file chunks calls k) ∧
      ((k = 0 ∧ (∃ c, ownAt blockSize file k = [c :: firstLine newline (restAt blockSize file 0)]) ∧
          returned blockSize file chunks calls k =
            if restAt blockSize file 0 = [] then []
            else [firstLine newline (restAt blockSize file 0)]) ∨
        (k ≠ 0 ∧ ownAt blockSize file k = [] ∧
          (returned blockSize file chunks calls k).length = 1)) := by
  obtain ⟨hb, hsmall, hle⟩ := blockAt_bounds hB hsz hk
  have hc := chunks_at hsz hch k
  unfold returned reader
  by_cases hzero : k = 0
  · subst hzero
    have hfirst : ¬ ((blockAt blockSize file 0).length = 1 →
        blockAt blockSize file 0 = [newline]) := hbad
    push Not at hfirst
    obtain ⟨c, hsingle⟩ := length_eq_one_iff.mp hfirst.1
    have hne : c ≠ newline := fun h => hfirst.2 (by rw [hsingle, h])
    rw [ownAt, hsingle, readBlock_single hc c (by omega)]
    refine ⟨rfl, .inl ⟨rfl, ⟨c, ?_⟩, rfl⟩⟩
    simp [ownLines, after, hne, firstLine]
  · have hcalls : (blockAt blockSize file k).length + 2 ≤ calls := by omega
    obtain ⟨hown, line, hline⟩ := readBlock_extra hzero hc hb hsmall hcalls hbad
    rw [hline]
    exact ⟨rfl, .inr ⟨hzero, hown, rfl⟩⟩

omit hk in
theorem readFile_eq : readFile blockSize file chunks calls =
    some ((offsets file.length blockSize).flatMap (returned blockSize file chunks calls)) := by
  have hmap : (offsets file.length blockSize).mapM
      (fun k => (reader blockSize file chunks k).readBlock calls) =
      some ((offsets file.length blockSize).map (returned blockSize file chunks calls)) := by
    apply mapM_eq_some
    intro k hk
    have hlt := (lt_of_mem_offsetsFrom hk).2
    by_cases hok : BlockOk k (blockAt blockSize file k) (restAt blockSize file k)
    · exact (returned_of_ok hB hsz hch hn hlt hok).1
    · exact (returned_of_not_ok hB hsz hch hn hlt hok).1
  rw [readFile, hmap]
  rfl

omit hk in
/-- The first reader is right if all together are. -/
theorem ok_first (hfile : file ≠ []) {ks : List Nat}
    (hks : ∀ k ∈ ks, blockSize ≤ k ∧ k < file.length)
    (heq : returned blockSize file chunks calls 0 ++
        ks.flatMap (returned blockSize file chunks calls) =
      ownAt blockSize file 0 ++ ks.flatMap (ownAt blockSize file)) :
    BlockOk 0 (blockAt blockSize file 0) (restAt blockSize file 0) := by
  by_contra hbad
  have hpos : 0 < file.length := length_pos_iff.mpr hfile
  obtain ⟨-, ⟨-, ⟨c, hown⟩, hret⟩ | ⟨hzero, -⟩⟩ := returned_of_not_ok hB hsz hch hn hpos hbad
  · rw [hown, hret] at heq
    by_cases ht : restAt blockSize file 0 = []
    · have hnone : ks = [] := by
        apply eq_nil_iff_forall_not_mem.mpr
        intro k hk
        have hle := drop_eq_nil_iff.mp ht
        have := hks k hk
        omega
      rw [if_pos ht, hnone] at heq
      simp at heq
    · rw [if_neg ht, singleton_append, singleton_append] at heq
      have hlen := congrArg List.length (List.cons.inj heq).1
      rw [length_cons] at hlen
      omega
  · exact hzero rfl

omit hk in
/-- And the others, since none of them returns too little. -/
theorem ok_later {ks : List Nat} (hks : ∀ k ∈ ks, blockSize ≤ k ∧ k < file.length)
    (heq : ks.flatMap (returned blockSize file chunks calls) = ks.flatMap (ownAt blockSize file)) :
    ∀ k ∈ ks, BlockOk k (blockAt blockSize file k) (restAt blockSize file k) := by
  have hle : ∀ k ∈ ks,
      (ownAt blockSize file k).length ≤ (returned blockSize file chunks calls k).length := by
    intro k hk
    by_cases hok : BlockOk k (blockAt blockSize file k) (restAt blockSize file k)
    · exact Nat.le_of_eq
        (congrArg List.length (returned_of_ok hB hsz hch hn (hks k hk).2 hok).2.symm)
    · obtain ⟨-, ⟨hzero, -⟩ | ⟨-, hown, -⟩⟩ := returned_of_not_ok hB hsz hch hn (hks k hk).2 hok
      · have := (hks k hk).1
        omega
      · rw [hown]
        exact Nat.zero_le _
  intro k hk
  by_contra hbad
  have hlen := (length_eq_of_flatMap hle).2 (congrArg List.length heq) k hk
  obtain ⟨-, ⟨hzero, -⟩ | ⟨-, hown, hone⟩⟩ := returned_of_not_ok hB hsz hch hn (hks k hk).2 hbad
  · have := (hks k hk).1
    omega
  · rw [hown, hone, length_nil] at hlen
    omega

omit hn hk in
/-- **The readers of a file** return its lines, with `ReadBlock` and with `HasLine` and `GetLine`,
if and only if each of them finds the `'\n'` it looks for. -/
theorem readFile_iff_fileOk :
    (∀ calls, file.length + 2 ≤ calls →
      readFile blockSize file chunks calls = some (fileLines file) ∧
      readFileByLine blockSize file chunks calls = some (fileLines file)) ↔
    FileOk blockSize file := by
  constructor
  · intro h
    have hn : file.length + 2 ≤ file.length + 2 := Nat.le_refl _
    have hlines := (h _ hn).1
    rw [readFile_eq hB hsz hch hn, ← flatMap_ownAt hB] at hlines
    have heq := Option.some.inj hlines
    by_cases hfile : file = []
    · intro k hk
      rw [hfile] at hk
      exact absurd (lt_of_mem_offsetsFrom hk).2 (Nat.not_lt_zero k)
    obtain ⟨ks, hks, hrest⟩ := offsets_eq blockSize hfile
    have hbound : ∀ k ∈ ks, blockSize ≤ k ∧ k < file.length := by
      intro k hk
      rw [hrest] at hk
      exact lt_of_mem_offsetsFrom hk
    rw [hks, flatMap_cons, flatMap_cons] at heq
    have hok := ok_first hB hsz hch hn hfile hbound heq
    have hpos : 0 < file.length := length_pos_iff.mpr hfile
    rw [(returned_of_ok hB hsz hch hn hpos hok).2] at heq
    intro k hk
    rw [hks] at hk
    rcases mem_cons.mp hk with rfl | hk
    · exact hok
    · exact ok_later hB hsz hch hn hbound (append_cancel_left heq) k hk
  · intro hok calls hn
    have hread : readFile blockSize file chunks calls = some (fileLines file) := by
      rw [readFile_eq hB hsz hch hn, ← flatMap_ownAt hB]
      refine congrArg some (flatMap_congr fun k hk => ?_)
      exact (returned_of_ok hB hsz hch hn (lt_of_mem_offsetsFrom hk).2 (hok k hk)).2
    refine ⟨hread, ?_⟩
    rw [← hread, readFileByLine, readFile]
    simp only [LineReader.readLines_eq]

end Readers

end File

/-! ## Files of two and three blocks -/

/-- `"ab\ncd"`: the second block starts with the `'\n'`. -/
def twoLines : List UInt8 := [97, 98, 10, 99, 100]

/-- What follows a block of two bytes, byte by byte. -/
def byteByByte (file : List UInt8) (k : Nat) : List (List UInt8) :=
  (file.drop (k + 2)).map fun c => [c]

theorem delivers_byteByByte (file : List UInt8) : Delivers 2 file (byteByByte file) := by
  intro k
  refine ⟨fun c hc => ?_, ?_⟩
  · obtain ⟨x, -, rfl⟩ := mem_map.mp hc
    exact ⟨cons_ne_nil x [], Nat.le_succ 1⟩
  · show (byteByByte file k).flatten = _
    unfold byteByByte
    rw [← flatMap_def, flatMap_singleton']

theorem readFile_iff_fileOk_twoLines :
    readFile 2 twoLines (byteByByte twoLines) 7 = some [[97, 98], [99, 100]] := by
  have hok : FileOk 2 twoLines := by decide
  exact ((readFile_iff_fileOk (by decide) (by decide) (delivers_byteByByte twoLines)).mpr hok 7
    (by decide)).1

/-- `"abc\n"` in blocks of two bytes: the second reader returns an empty line after the last
`'\n'`.  `"abcdef"`: the second and the third return lines of their own. -/
theorem readFile_invents_lines :
    readFile 2 [97, 98, 99, 10] (byteByByte [97, 98, 99, 10]) 6 = some [[97, 98, 99], []] ∧
      fileLines [97, 98, 99, 10] = [[97, 98, 99]] ∧
      readFile 2 [97, 98, 99, 100, 101, 102] (byteByByte [97, 98, 99, 100, 101, 102]) 8 =
        some [[97, 98, 99, 100, 101, 102], [99, 100, 101, 102], [101, 102]] ∧
      fileLines [97, 98, 99, 100, 101, 102] = [[97, 98, 99, 100, 101, 102]] := by
  decide +kernel

end Tangram
