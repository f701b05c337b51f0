import Mathlib

/-!
# A minimum that is kept by counting

A family `f` of integers over a list of places only ever grows by one at one
place.  Its minimum can be kept without looking at the family: keep the minimum
`m` and the number `k` of places that are at `m`; a place that leaves `m` takes
one off `k`, and when `k` is 0 the minimum is `m + 1` and `k` is counted anew.

    MinCount l f m k              `m` is the minimum over `l`, taken at `k > 0` places
    MinCount.incr_above/_min/_last    what one increment does to it
    MinCount.cons_below/_at/_above    what a new place does to it
    MinCount.tail_at/_above           what a place that goes does to it
    leastFrom cap f l                 the minimum, looked for from `cap` downwards
-/

variable {κ : Type}

structure MinCount (l : List κ) (f : κ → Int) (m k : Int) : Prop where
  le : ∀ p ∈ l, m ≤ f p
  count : k = l.countP fun p => f p = m
  pos : 0 < k

namespace MinCount

open List Function

variable {l : List κ} {f : κ → Int} {m k : Int}

theorem exists_eq (h : MinCount l f m k) : ∃ p ∈ l, f p = m := by
  have hpos : 0 < l.countP fun p => f p = m := by
    have := h.count
    have := h.pos
    omega
  obtain ⟨p, hp, he⟩ := countP_pos_iff.mp hpos
  exact ⟨p, hp, of_decide_eq_true he⟩

theorem isLeast (h : MinCount l f m k) : IsLeast {v | ∃ p ∈ l, f p = v} m := by
  refine ⟨h.exists_eq, ?_⟩
  rintro v ⟨p, hp, rfl⟩
  exact h.le p hp

/-- All places are at `m`. -/
theorem const (hl : l ≠ []) (m : Int) : MinCount l (fun _ => m) m l.length where
  le _ _ := Int.le_refl m
  count := by simp
  pos := by
    have := length_pos_iff.mpr hl
    omega

/-! ### Places that come and go -/

theorem perm {l' : List κ} (h : MinCount l f m k) (hl : l.Perm l') : MinCount l' f m k where
  le p hp := h.le p (hl.mem_iff.mpr hp)
  count := by
    rw [h.count, hl.countP_eq]
  pos := h.pos

theorem congr {g : κ → Int} (h : MinCount l f m k) (hfg : ∀ p ∈ l, f p = g p) :
    MinCount l g m k where
  le p hp := by
    rw [← hfg p hp]
    exact h.le p hp
  count := by
    rw [h.count]
    congr 1
    exact countP_congr fun p hp => by rw [hfg p hp]
  pos := h.pos

section Places

variable {a : κ}

/-- A new place below all others. -/
theorem cons_below (hl : ∀ p ∈ l, f a < f p) : MinCount (a :: l) f (f a) 1 where
  le p hp := by
    rcases mem_cons.mp hp with rfl | hp
    · exact Int.le_refl _
    · exact Int.le_of_lt (hl p hp)
  count := by
    have hnone : (l.countP fun p => f p = f a) = 0 := by
      rw [countP_eq_zero]
      intro p hp
      have := hl p hp
      simp only [decide_eq_true_eq]
      omega
    rw [countP_cons, hnone]
    simp
  pos := by decide

/-- A new place at the minimum. -/
theorem cons_at (h : MinCount l f m k) (ha : f a = m) : MinCount (a :: l) f m (k + 1) where
  le p hp := by
    rcases mem_cons.mp hp with rfl | hp
    · exact Int.le_of_eq ha.symm
    · exact h.le p hp
  count := by
    rw [countP_cons, if_pos (by simpa using ha), h.count]
    rfl
  pos := by
    have := h.pos
    omega

/-- A new place above the minimum. -/
theorem cons_above (h : MinCount l f m k) (ha : m < f a) : MinCount (a :: l) f m k where
  le p hp := by
    rcases mem_cons.mp hp with rfl | hp
    · exact Int.le_of_lt ha
    · exact h.le p hp
  count := by
    have hne : ¬ f a = m := by omega
    rw [countP_cons, if_neg (by simpa using hne), h.count]
    rfl
  pos := h.pos

/-- One of several places at the minimum goes. -/
theorem tail_at (h : MinCount (a :: l) f m k) (ha : f a = m) (hk : 1 < k) :
    MinCount l f m (k - 1) where
  le p hp := h.le p (mem_cons_of_mem _ hp)
  count := by
    have hc := h.count
    rw [countP_cons, if_pos (by simpa using ha)] at hc
    omega
  pos := by omega

/-- A place above the minimum goes. -/
theorem tail_above (h : MinCount (a :: l) f m k) (ha : f a ≠ m) : MinCount l f m k where
  le p hp := h.le p (mem_cons_of_mem _ hp)
  count := by
    have hc := h.count
    rwa [countP_cons, if_neg (by simpa using ha)] at hc
  pos := h.pos

/-- The minimum kept over a place that comes: right if places were counted before, or if the new
one is alone and the count starts from 0. -/
theorem cons_iff (h : l ≠ [] → MinCount l f m k) :
    MinCount (a :: l) f (if f a < m then f a else m)
        (if f a < m then 1 else if f a = m then k + 1 else k) ↔
      l ≠ [] ∨ f a < m ∨ (f a = m ∧ k = 0) := by
  rcases Int.lt_trichotomy (f a) m with hlt | heq | hgt
  · rw [if_pos hlt, if_pos hlt]
    refine ⟨fun _ => .inr (.inl hlt), fun _ => cons_below fun p hp => ?_⟩
    have := (h (ne_nil_of_mem hp)).le p hp
    omega
  · rw [if_neg (by omega), if_neg (by omega), if_pos heq]
    constructor
    · intro hc
      by_cases hl : l = []
      · subst hl
        have hcount := hc.count
        simp [heq] at hcount
        exact .inr (.inr ⟨heq, by omega⟩)
      · exact .inl hl
    · intro hc
      by_cases hl : l = []
      · subst hl
        obtain hl | hlt | ⟨-, hk⟩ := hc
        · exact absurd rfl hl
        · omega
        · rw [hk, ← heq]
          exact cons_below fun p hp => absurd hp not_mem_nil
      · exact (h hl).cons_at heq
  · rw [if_neg (by omega), if_neg (by omega), if_neg (by omega)]
    constructor
    · intro hc
      by_cases hl : l = []
      · subst hl
        obtain ⟨p, hp, hval⟩ := hc.exists_eq
        rw [mem_singleton.mp hp] at hval
        omega
      · exact .inl hl
    · rintro (hl | hlt | ⟨heq, -⟩)
      · exact (h hl).cons_above hgt
      · omega
      · omega

/-- A place that comes at the minimum and is not counted. -/
theorem cons_uncounted_iff (h : l ≠ [] → MinCount l f m k) (ha : f a = m) :
    MinCount (a :: l) f m k ↔ l = [] ∧ k = 1 := by
  constructor
  · intro hc
    have hcount := hc.count
    rw [countP_cons, if_pos (by simpa using ha)] at hcount
    by_cases hl : l = []
    · subst hl
      exact ⟨rfl, by simpa using hcount⟩
    · have := (h hl).count
      omega
  · rintro ⟨rfl, rfl⟩
    rw [← ha]
    exact cons_below fun p hp => absurd hp not_mem_nil

end Places

/-! ### Looking for the minimum -/

/-- The least value over `l` and `cap`. -/
def leastFrom (cap : Int) (f : κ → Int) (l : List κ) : Int :=
  l.foldl (fun m p => if f p < m then f p else m) cap

theorem leastFrom_spec (cap : Int) (f : κ → Int) (l : List κ) :
    leastFrom cap f l ≤ cap ∧ (∀ p ∈ l, leastFrom cap f l ≤ f p) ∧
      (leastFrom cap f l = cap ∨ ∃ p ∈ l, f p = leastFrom cap f l) := by
  induction l generalizing cap with
  | nil => exact ⟨Int.le_refl _, fun p hp => absurd hp not_mem_nil, .inl rfl⟩
  | cons a l ih =>
    obtain ⟨hcap, hle, hex⟩ := ih (if f a < cap then f a else cap)
    have hstep : leastFrom cap f (a :: l) = leastFrom (if f a < cap then f a else cap) f l := rfl
    have hmin : (if f a < cap then f a else cap) ≤ cap ∧ (if f a < cap then f a else cap) ≤ f a := by
      split <;> omega
    rw [hstep]
    refine ⟨Int.le_trans hcap hmin.1, fun p hp => ?_, ?_⟩
    · rcases mem_cons.mp hp with rfl | hp
      · exact Int.le_trans hcap hmin.2
      · exact hle p hp
    · rcases hex with heq | ⟨p, hp, hval⟩
      · by_cases ha : f a < cap
        · rw [if_pos ha] at heq ⊢
          exact .inr ⟨a, mem_cons_self, heq.symm⟩
        · rw [if_neg ha] at heq ⊢
          exact .inl heq
      · exact .inr ⟨p, mem_cons_of_mem _ hp, hval⟩

/-- It is the minimum if that is not above the cap. -/
theorem leastFrom_iff (cap : Int) :
    MinCount l f (leastFrom cap f l) (l.countP fun p => f p = leastFrom cap f l) ↔
      ∃ p ∈ l, f p ≤ cap := by
  obtain ⟨hcap, hle, hex⟩ := leastFrom_spec cap f l
  constructor
  · intro h
    obtain ⟨p, hp, hval⟩ := h.exists_eq
    exact ⟨p, hp, by omega⟩
  · rintro ⟨p, hp, hpcap⟩
    have hattained : ∃ q ∈ l, f q = leastFrom cap f l := by
      rcases hex with heq | hex
      · have := hle p hp
        exact ⟨p, hp, by omega⟩
      · exact hex
    obtain ⟨q, hq, hval⟩ := hattained
    refine ⟨hle, rfl, ?_⟩
    have hpos : 0 < l.countP fun p => f p = leastFrom cap f l :=
      countP_pos_iff.mpr ⟨q, hq, decide_eq_true hval⟩
    omega

theorem leastFrom_eq (h : MinCount l f m k) (cap : Int) :
    leastFrom cap f l = if m ≤ cap then m else cap := by
  obtain ⟨hcap, hle, hex⟩ := leastFrom_spec cap f l
  obtain ⟨p, hp, hval⟩ := h.exists_eq
  have hm := hle p hp
  rcases hex with heq | ⟨q, hq, hq'⟩
  · split <;> omega
  · have := h.le q hq
    split <;> omega

/-- A place at the minimum goes: one is taken off the count, or the minimum is looked for. -/
theorem tail_iff {a : κ} (h : MinCount (a :: l) f m k) (ha : f a = m) (cap : Int) :
    (l ≠ [] → MinCount l f (if 1 < k then m else leastFrom cap f l)
        (if 1 < k then k - 1 else l.countP fun p => f p = leastFrom cap f l)) ↔
      1 < k ∨ l = [] ∨ ∃ p ∈ l, f p ≤ cap := by
  by_cases hk : 1 < k
  · rw [if_pos hk, if_pos hk]
    exact ⟨fun _ => .inl hk, fun _ _ => h.tail_at ha hk⟩
  · rw [if_neg hk, if_neg hk, leastFrom_iff]
    constructor
    · intro hl
      by_cases hnil : l = []
      · exact .inr (.inl hnil)
      · exact .inr (.inr (hl hnil))
    · rintro (hk' | hnil | hex) hl
      · exact absurd hk' hk
      · exact absurd hnil hl
      · exact hex

/-! ### Places that move on -/

variable [DecidableEq κ] {p : κ}

theorem countP_incr (hn : l.Nodup) (hp : p ∈ l) (v : Int) :
    (l.countP fun q => update f p (f p + 1) q = v) + (if f p = v then 1 else 0) =
      (l.countP fun q => f q = v) + if f p + 1 = v then 1 else 0 := by
  have hperm := perm_cons_erase hp
  have hrest : ((l.erase p).countP fun q => update f p (f p + 1) q = v) =
      (l.erase p).countP fun q => f q = v := by
    refine countP_congr fun q hq => ?_
    have hne : q ≠ p := by
      rintro rfl
      exact hn.not_mem_erase hq
    rw [update_of_ne hne]
  rw [hperm.countP_eq, hperm.countP_eq, countP_cons, countP_cons, hrest,
    update_self]
  simp only [decide_eq_true_eq]
  omega

theorem le_incr (h : ∀ q ∈ l, m ≤ f q) : ∀ q ∈ l, m ≤ update f p (f p + 1) q := by
  intro q hq
  have hle := h q hq
  by_cases hqp : q = p
  · subst hqp
    rw [update_self]
    omega
  · rw [update_of_ne hqp]
    exact hle

/-- A place above the minimum moves. -/
theorem incr_above (h : MinCount l f m k) (hn : l.Nodup) (hp : p ∈ l) (hm : f p ≠ m) :
    MinCount l (update f p (f p + 1)) m k where
  le := le_incr h.le
  count := by
    have hc := countP_incr (f := f) hn hp m
    have hle := h.le p hp
    rw [if_neg hm, if_neg (by omega)] at hc
    have := h.count
    omega
  pos := h.pos

/-- One of several places at the minimum moves. -/
theorem incr_min (h : MinCount l f m k) (hn : l.Nodup) (hp : p ∈ l) (hm : f p = m)
    (hk : k - 1 ≠ 0) : MinCount l (update f p (f p + 1)) m (k - 1) where
  le := le_incr h.le
  count := by
    have hc := countP_incr (f := f) hn hp m
    rw [if_pos hm, if_neg (by omega)] at hc
    have := h.count
    omega
  pos := by
    have := h.pos
    omega

/-- The last place at the minimum moves. -/
theorem incr_last (h : MinCount l f m k) (hn : l.Nodup) (hp : p ∈ l) (hm : f p = m)
    (hk : k - 1 = 0) : MinCount l (update f p (f p + 1)) (m + 1)
      (l.countP fun q => update f p (f p + 1) q = m + 1) where
  le := by
    -- nobody is left at `m`
    have hc := countP_incr (f := f) hn hp m
    rw [if_pos hm, if_neg (by omega)] at hc
    have hzero : (l.countP fun q => update f p (f p + 1) q = m) = 0 := by
      have := h.count
      omega
    rw [countP_eq_zero] at hzero
    intro q hq
    have hle := le_incr (p := p) h.le q hq
    have hne : update f p (f p + 1) q ≠ m := by simpa using hzero q hq
    omega
  count := rfl
  pos := by
    have hpos : 0 < l.countP fun q => update f p (f p + 1) q = m + 1 :=
      countP_pos_iff.mpr ⟨p, hp, by simp [hm]⟩
    omega

end MinCount
