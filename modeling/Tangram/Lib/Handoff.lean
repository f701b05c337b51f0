import Mathlib

/-!
# Handing a resource over behind a barrier

An order to hand a resource over is started at every node; the giver is closed from its
start on.  Each node that has started tells the giver with a flush.  When the giver has
all the flushes it sends the resource in a parcel, and the order ends where the parcel
is delivered.

    Step nodes h h'        one thing that can happen
    Inv h                  quiet, leaving the giver, or arriving at the taker
    Inv.step               the invariant rule
    Inv.order_of_closed    a closed node is the giver of an order that has not ended
-/

namespace Handoff

/-- `total` is the number of flushes to wait for. -/
structure Order (ν : Type) where
  src : ν
  dst : ν
  total : Int
deriving DecidableEq

inductive Msg (ν : Type)
  | start (o : Order ν)
  | flush (o : Order ν)
  | parcel (o : Order ν)
deriving DecidableEq

end Handoff

open Handoff in
@[ext]
structure Handoff (ν : Type) where
  /-- The messages under way, each with its destination. -/
  posts : Multiset (ν × Msg ν)
  /-- The flushes that a node has counted. -/
  count : ν → Int
  /-- The node knows that it has to give the resource away. -/
  closed : ν → Prop
  order : Option (Order ν)

namespace Handoff

variable {ν : Type}

/-! ## Steps -/

section Steps

variable (nodes : List ν) (h : Handoff ν) (n : ν) (o : Order ν) (l : Multiset (ν × Msg ν))

def ordered : Handoff ν :=
  { h with
    posts := h.posts + Multiset.ofList (nodes.map fun n => (n, .start o))
    order := some o }

variable [DecidableEq ν]

def started : Handoff ν :=
  { h with
    posts := (o.src, .flush o) ::ₘ l
    closed := Function.update h.closed n (o.src = n ∨ h.closed n) }

def counted : Handoff ν :=
  { h with
    posts := l
    count := Function.update h.count n (h.count n + 1) }

def shipped : Handoff ν :=
  { h with
    posts := (o.dst, .parcel o) ::ₘ l
    count := Function.update h.count n 0
    closed := Function.update h.closed n False }

def delivered : Handoff ν := { h with posts := l, order := none }

/-- `l` are the other messages. -/
inductive Step : Handoff ν → Handoff ν → Prop
  | order {h : Handoff ν} {o : Order ν} (ho : h.order = none) (ht : o.total = nodes.length) :
      Step h (h.ordered nodes o)
  | start {h : Handoff ν} {n : ν} {o : Order ν} {l : Multiset (ν × Msg ν)}
      (hp : h.posts = (n, .start o) ::ₘ l) : Step h (h.started n o l)
  | count {h : Handoff ν} {n : ν} {o : Order ν} {l : Multiset (ν × Msg ν)}
      (hp : h.posts = (n, .flush o) ::ₘ l) : Step h (h.counted n l)
  | ship {h : Handoff ν} {n : ν} {o : Order ν} {l : Multiset (ν × Msg ν)}
      (hp : h.posts = (n, .flush o) ::ₘ l) (hc : h.count n + 1 = o.total) :
      Step h (h.shipped n o l)
  | deliver {h : Handoff ν} {n : ν} {o : Order ν} {l : Multiset (ν × Msg ν)}
      (hp : h.posts = (n, .parcel o) ::ₘ l) : Step h (h.delivered l)

end Steps

/-! ## Phases -/

structure Quiet (h : Handoff ν) : Prop where
  order : h.order = none
  posts : h.posts = 0
  count : ∀ n, h.count n = 0
  closed : ∀ n, ¬ h.closed n

/-- A node that has started has its flush under way, or the giver has counted it. -/
structure Leaving (o : Order ν) (h : Handoff ν) : Prop where
  order : h.order = some o
  posts : ∀ k ∈ h.posts, k.2 = .start o ∨ k = (o.src, .flush o)
  total : h.posts.card + h.count o.src = o.total
  count : ∀ n, n ≠ o.src → h.count n = 0
  closed : ∀ n, h.closed n → n = o.src

structure Arriving (o : Order ν) (h : Handoff ν) : Prop where
  order : h.order = some o
  posts : h.posts = {(o.dst, .parcel o)}
  count : ∀ n, h.count n = 0
  closed : ∀ n, ¬ h.closed n

inductive Inv (h : Handoff ν) : Prop
  | quiet (z : Quiet h)
  | leaving (o : Order ν) (z : Leaving o h)
  | arriving (o : Order ν) (z : Arriving o h)

variable {nodes : List ν} {h h' : Handoff ν} {n : ν} {o : Order ν} {l : Multiset (ν × Msg ν)}

/-! ## The invariant rule -/

theorem Inv.order_of_closed (hi : Inv h) (hc : h.closed n) :
    ∃ o, h.order = some o ∧ o.src = n := by
  cases hi with
  | quiet z => exact absurd hc (z.closed n)
  | leaving o z => exact ⟨o, z.order, (z.closed n hc).symm⟩
  | arriving o z => exact absurd hc (z.closed n)

/-- Only a hand-over that has not been shipped has starts and flushes. -/
theorem Inv.leaving_of_mem (hi : Inv h) {k : ν × Msg ν} (hk : k ∈ h.posts)
    (hm : ∀ o, k.2 ≠ .parcel o) : ∃ o, Leaving o h := by
  cases hi with
  | quiet z =>
    rw [z.posts] at hk
    exact absurd hk (Multiset.notMem_zero k)
  | leaving o z => exact ⟨o, z⟩
  | arriving o z =>
    rw [z.posts, Multiset.mem_singleton] at hk
    rw [hk] at hm
    exact absurd rfl (hm o)

theorem Inv.ordered (hi : Inv h) (ho : h.order = none) (ht : o.total = nodes.length) :
    Inv (h.ordered nodes o) := by
  cases hi with
  | quiet z =>
    have hposts : (h.ordered nodes o).posts =
        Multiset.ofList (nodes.map fun n => (n, Msg.start o)) := by
      show h.posts + _ = _
      rw [z.posts, zero_add]
    refine .leaving o ⟨rfl, fun k hk => ?_, ?_, fun n _ => z.count n,
      fun n hn => absurd hn (z.closed n)⟩
    · rw [hposts, Multiset.mem_coe] at hk
      obtain ⟨m, -, rfl⟩ := List.mem_map.mp hk
      exact .inl rfl
    · have hc : (h.ordered nodes o).count o.src = 0 := z.count o.src
      rw [hposts, hc, Multiset.coe_card, List.length_map, ht, Int.add_zero]
  | leaving o' z => exact absurd (ho.symm.trans z.order) (by simp)
  | arriving o' z => exact absurd (ho.symm.trans z.order) (by simp)

theorem Inv.delivered (hi : Inv h) (hp : h.posts = (n, .parcel o) ::ₘ l) :
    Inv (h.delivered l) := by
  have hk : (n, Msg.parcel o) ∈ h.posts := by
    rw [hp]
    exact Multiset.mem_cons_self _ _
  cases hi with
  | quiet z =>
    rw [z.posts] at hk
    exact absurd hk (Multiset.notMem_zero _)
  | leaving o' z =>
    rcases z.posts _ hk with hk | hk
    · cases hk
    · exact absurd (congrArg Prod.snd hk) (by simp)
  | arriving o' z =>
    have hc := congrArg Multiset.card z.posts
    rw [hp, Multiset.card_cons, Multiset.card_singleton] at hc
    have hl : l = 0 := Multiset.card_eq_zero.mp (by omega)
    exact .quiet ⟨rfl, hl, z.count, z.closed⟩

/-- A flush is for the giver, and counts for its order. -/
theorem Inv.leaving_of_flush (hi : Inv h) (hp : h.posts = (n, .flush o) ::ₘ l) :
    Leaving o h ∧ n = o.src := by
  have hk : (n, Msg.flush o) ∈ h.posts := by
    rw [hp]
    exact Multiset.mem_cons_self _ _
  obtain ⟨o', z⟩ := hi.leaving_of_mem hk fun _ => by simp
  rcases z.posts _ hk with hk | hk
  · cases hk
  · obtain rfl : o = o' := Msg.flush.inj (congrArg Prod.snd hk)
    exact ⟨z, congrArg Prod.fst hk⟩

variable [DecidableEq ν]

theorem Inv.started (hi : Inv h) (hp : h.posts = (n, .start o) ::ₘ l) : Inv (h.started n o l) := by
  have hk : (n, Msg.start o) ∈ h.posts := by
    rw [hp]
    exact Multiset.mem_cons_self _ _
  obtain ⟨o', z⟩ := hi.leaving_of_mem hk fun _ => by simp
  obtain rfl : o = o' := by
    rcases z.posts _ hk with hk | hk
    · exact Msg.start.inj hk
    · exact absurd (congrArg Prod.snd hk) (by simp)
  refine .leaving o ⟨z.order, fun k hk => ?_, ?_, z.count, fun m hm => ?_⟩
  · rcases Multiset.mem_cons.mp hk with rfl | hk
    · exact .inr rfl
    · exact z.posts k (by rw [hp]; exact Multiset.mem_cons_of_mem hk)
  · have ht := z.total
    rw [hp, Multiset.card_cons] at ht
    show (Multiset.card (_ ::ₘ l) : Int) + h.count o.src = o.total
    rw [Multiset.card_cons]
    exact ht
  · replace hm : Function.update h.closed n (o.src = n ∨ h.closed n) m := hm
    by_cases hmn : m = n
    · subst hmn
      rw [Function.update_self] at hm
      exact hm.elim Eq.symm (z.closed m)
    · rw [Function.update_of_ne hmn] at hm
      exact z.closed m hm

theorem Inv.counted (hi : Inv h) (hp : h.posts = (n, .flush o) ::ₘ l) : Inv (h.counted n l) := by
  obtain ⟨z, rfl⟩ := hi.leaving_of_flush hp
  refine .leaving o ⟨z.order, fun k hk => ?_, ?_, fun m hm => ?_, z.closed⟩
  · exact z.posts k (by rw [hp]; exact Multiset.mem_cons_of_mem hk)
  · have ht := z.total
    rw [hp, Multiset.card_cons] at ht
    show (l.card : Int) + Function.update h.count o.src (h.count o.src + 1) o.src = o.total
    rw [Function.update_self]
    omega
  · show Function.update h.count o.src _ m = 0
    rw [Function.update_of_ne hm]
    exact z.count m hm

/-- The barrier: once the last flush is counted, nothing else is under way. -/
theorem Inv.shipped (hi : Inv h) (hp : h.posts = (n, .flush o) ::ₘ l)
    (hc : h.count n + 1 = o.total) : Inv (h.shipped n o l) := by
  obtain ⟨z, rfl⟩ := hi.leaving_of_flush hp
  have hl : l = 0 := by
    have ht := z.total
    rw [hp, Multiset.card_cons] at ht
    exact Multiset.card_eq_zero.mp (by omega)
  subst hl
  refine .arriving o ⟨z.order, rfl, fun m => ?_, fun m hm => ?_⟩
  · show Function.update h.count o.src 0 m = 0
    by_cases hmn : m = o.src
    · rw [hmn, Function.update_self]
    · rw [Function.update_of_ne hmn]
      exact z.count m hmn
  · replace hm : Function.update h.closed o.src False m := hm
    by_cases hmn : m = o.src
    · rw [hmn, Function.update_self] at hm
      exact hm
    · rw [Function.update_of_ne hmn] at hm
      exact hmn (z.closed m hm)

theorem Inv.step (nodes : List ν) (hi : Inv h) (hs : Step nodes h h') : Inv h' := by
  cases hs with
  | order ho ht => exact hi.ordered ho ht
  | start hp => exact hi.started hp
  | count hp => exact hi.counted hp
  | ship hp hc => exact hi.shipped hp hc
  | deliver hp => exact hi.delivered hp

end Handoff
