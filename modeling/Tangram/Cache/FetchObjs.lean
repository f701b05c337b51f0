import Tangram.Cache.Fetcher
import Tangram.Lib.Bag
import Tangram.Lib.OrdMap

/-!
# Fetching objects

`Fetcher::FetchObjs` and `FetchObjsReply` (`core/cache/fetcher.cpp`).  A call
registers its vector for the replies, sends a request for each partition, waits
until it has as many replies and erases its entries.  Any number of threads call it;
the controllers answer every request once, in any order.

Both tables are kept by the id of the partition that is being mapped.  Maps of two
plans may have the same id: then the second call takes the replies of the first.  As
long as no two calls of one id overlap (`Apart`), every call gets its own replies.

    replies of a call ++ its requests under way ++ what it still has to send ~ what it asks for
-/

namespace Tangram

open StepRun List Function

variable {κ β : Type}

/-- A `kFetchRequest`; which call has sent it is not a part of the message. -/
structure ObjsRequest (κ : Type) where
  call : Nat
  fetchMeta : FetchMeta
  keys : κ
deriving DecidableEq, Repr

/-- A `kFetchObjsReply` with the request it answers. -/
structure ObjsReply (κ β : Type) where
  request : ObjsRequest κ
  bin : β
deriving DecidableEq, Repr

/-- A call of `FetchObjs`: what it asks for, what it has still to send, and `rets`. -/
structure ObjsCall (κ β : Type) where
  planId : Int
  upstreamPartId : Int
  collectionId : Int
  partToKeys : List (Int × κ)
  toSend : List (Int × κ)
  rets : List (ObjsReply κ β)
  returned : Bool
deriving DecidableEq, Repr

/-- `recvBinstream` points to the vector of a call; `recvFinished` is 0 where there is no entry. -/
structure ObjsFetcher (κ β : Type) where
  recvBinstream : Int → Option Nat
  recvFinished : Int → Int
  calls : List (ObjsCall κ β)
  requests : List (ObjsRequest κ)

inductive ObjsEvent (κ β : Type)
  | fetchObjs (planId upstreamPartId collectionId : Int) (partToKeys : List (Int × κ))
  | send (c : Nat)
  | reply (i : Nat) (bin : β)
  | wake (c : Nat)
deriving DecidableEq, Repr

/-- `entry` is the `CHECK` of `FetchObjsReply`; the others say that the event cannot happen. -/
inductive ObjsCheck
  | entry
  | noTurn | noMessage
deriving DecidableEq, Repr

namespace ObjsFetcher

def init : ObjsFetcher κ β := ⟨fun _ => none, fun _ => 0, [], []⟩

/-- The call begins: it registers `rets`. -/
def fetchObjs (s : ObjsFetcher κ β) (planId upstreamPartId collectionId : Int)
    (partToKeys : List (Int × κ)) : ObjsFetcher κ β :=
  { s with
    recvBinstream := Function.update s.recvBinstream upstreamPartId (some s.calls.length)
    calls := s.calls ++
      [⟨planId, upstreamPartId, collectionId, partToKeys, partToKeys, [], false⟩] }

/-- The next turn of the loop that sends. -/
def send (s : ObjsFetcher κ β) (c : Nat) : Except ObjsCheck (ObjsFetcher κ β) :=
  match s.calls[c]? with
  | none => .error .noTurn
  | some x =>
    match x.toSend with
    | [] => .error .noTurn
    | (partId, keys) :: rest => .ok { s with
        calls := s.calls.set c { x with toSend := rest }
        requests := s.requests ++
          [⟨c, ⟨x.planId, x.upstreamPartId, x.collectionId, partId, -1, false⟩, keys⟩] }

def fetchObjsReply (s : ObjsFetcher κ β) (r : ObjsReply κ β) :
    Except ObjsCheck (ObjsFetcher κ β) :=
  let u := r.request.fetchMeta.upstreamPartId
  match s.recvBinstream u with
  | none => .error .entry
  | some c => .ok { s with
      calls := s.calls.modify c fun x => { x with rets := x.rets ++ [r] }
      recvFinished := Function.update s.recvFinished u (s.recvFinished u + 1) }

def reply (s : ObjsFetcher κ β) (i : Nat) (bin : β) : Except ObjsCheck (ObjsFetcher κ β) :=
  match s.requests[i]? with
  | none => .error .noMessage
  | some r => { s with requests := s.requests.eraseIdx i }.fetchObjsReply ⟨r, bin⟩

/-- The wait is over, and the call returns. -/
def wake (s : ObjsFetcher κ β) (c : Nat) : Except ObjsCheck (ObjsFetcher κ β) :=
  match s.calls[c]? with
  | none => .error .noTurn
  | some x => do
    check .noTurn (x.returned = false ∧ x.toSend.length = 0)
    check .noTurn (s.recvFinished x.upstreamPartId = x.partToKeys.length)
    return { s with
      recvBinstream := Function.update s.recvBinstream x.upstreamPartId none
      recvFinished := Function.update s.recvFinished x.upstreamPartId 0
      calls := s.calls.set c { x with returned := true } }

def step (s : ObjsFetcher κ β) : ObjsEvent κ β → Except ObjsCheck (ObjsFetcher κ β)
  | .fetchObjs planId u cid partToKeys => .ok (s.fetchObjs planId u cid partToKeys)
  | .send c => s.send c
  | .reply i bin => s.reply i bin
  | .wake c => s.wake c

/-- A call begins only while no other one for this partition id is under way. -/
def Apart (s : ObjsFetcher κ β) : ObjsEvent κ β → Prop
  | .fetchObjs _ u _ _ => ∀ x ∈ s.calls, x.returned = false → x.upstreamPartId ≠ u
  | _ => True

instance (s : ObjsFetcher κ β) : (e : ObjsEvent κ β) → Decidable (s.Apart e)
  | .fetchObjs _ u _ _ =>
    inferInstanceAs (Decidable (∀ x ∈ s.calls, x.returned = false → x.upstreamPartId ≠ u))
  | .send _ | .reply _ _ | .wake _ => inferInstanceAs (Decidable True)

/-! ## What belongs to a call -/

/-- The partition and the keys of a request. -/
def asks (r : ObjsRequest κ) : Int × κ := (r.fetchMeta.partitionId, r.keys)

/-- The requests of a call that are not answered. -/
def flying (s : ObjsFetcher κ β) (c : Nat) : List (ObjsRequest κ) := s.requests.filter (·.call = c)

structure CallOk (s : ObjsFetcher κ β) (c : Nat) (x : ObjsCall κ β) : Prop where
  account : ((x.rets.map (·.request) ++ s.flying c).map asks ++ x.toSend).Perm x.partToKeys
  own : ∀ r ∈ x.rets, r.request.call = c
  active : x.returned = false →
    s.recvBinstream x.upstreamPartId = some c ∧ s.recvFinished x.upstreamPartId = x.rets.length
  done : x.returned = true → s.flying c = [] ∧ x.toSend = []

structure Inv (s : ObjsFetcher κ β) : Prop where
  calls : ∀ c x, s.calls[c]? = some x → s.CallOk c x
  requests : ∀ r ∈ s.requests, ∃ x, s.calls[r.call]? = some x ∧ x.returned = false ∧
    x.upstreamPartId = r.fetchMeta.upstreamPartId
  idle : ∀ u, (∀ x ∈ s.calls, x.returned = false → x.upstreamPartId ≠ u) → s.recvFinished u = 0

variable {s t : ObjsFetcher κ β} {c c' : Nat} {x y : ObjsCall κ β}

theorem inv_init : Inv (init : ObjsFetcher κ β) where
  calls c x hx := by cases hx
  requests r hr := absurd hr not_mem_nil
  idle _ _ := rfl

/-- Two calls under way have different ids. -/
theorem Inv.eq_of_upstream (h : Inv s) (hx : s.calls[c]? = some x) (hy : s.calls[c']? = some y)
    (hxa : x.returned = false) (hya : y.returned = false)
    (hu : x.upstreamPartId = y.upstreamPartId) : c = c' := by
  have hxc := ((h.calls c x hx).active hxa).1
  have hyc := ((h.calls c' y hy).active hya).1
  rw [hu, hyc] at hxc
  exact (Option.some.inj hxc).symm

/-- A call that has nothing to do with a step. -/
theorem CallOk.congr (h : s.CallOk c x) (hfly : t.flying c = s.flying c)
    (hact : x.returned = false → t.recvBinstream x.upstreamPartId = s.recvBinstream x.upstreamPartId ∧
      t.recvFinished x.upstreamPartId = s.recvFinished x.upstreamPartId) : t.CallOk c x where
  account := by rw [hfly]; exact h.account
  own := h.own
  active hx := by
    rw [(hact hx).1, (hact hx).2]
    exact h.active hx
  done hx := by rw [hfly]; exact h.done hx

/-! ## Steps -/

theorem Inv.fetchObjs (h : Inv s) {planId u cid : Int} {l : List (Int × κ)}
    (ha : ∀ x ∈ s.calls, x.returned = false → x.upstreamPartId ≠ u) :
    Inv (s.fetchObjs planId u cid l) := by
  have hnone : s.flying s.calls.length = [] := by
    refine filter_eq_nil_iff.mpr fun r hr hc => ?_
    obtain ⟨x, hx, -⟩ := h.requests r hr
    obtain ⟨hlt, -⟩ := List.getElem?_eq_some_iff.mp hx
    have := of_decide_eq_true hc
    omega
  have hget : ∀ c x, (s.calls ++ [⟨planId, u, cid, l, l, [], false⟩])[c]? = some x →
      s.calls[c]? = some x ∨ c = s.calls.length ∧ x = ⟨planId, u, cid, l, l, [], false⟩ := by
    intro c x hx
    rw [List.getElem?_append] at hx
    split at hx
    · exact .inl hx
    · next hge =>
      obtain ⟨hlt, hval⟩ := List.getElem?_eq_some_iff.mp hx
      have hc : c = s.calls.length := by
        simp only [length_singleton] at hlt
        omega
      subst hc
      refine .inr ⟨rfl, ?_⟩
      simpa using hval.symm
  refine ⟨fun c x hx => ?_, fun r hr => ?_, fun v hv => ?_⟩
  · rcases hget c x hx with hx | ⟨rfl, rfl⟩
    · refine (h.calls c x hx).congr rfl fun hact => ⟨update_of_ne ?_ _ _, rfl⟩
      exact ha x (mem_of_getElem? hx) hact
    · refine ⟨?_, fun r hr => absurd hr not_mem_nil, fun _ => ⟨update_self _ _ _, ?_⟩,
        fun hx => by cases hx⟩
      · show (([] ++ s.flying s.calls.length).map asks ++ l).Perm l
        rw [hnone]
        exact List.Perm.refl _
      · exact h.idle u ha
  · obtain ⟨x, hx, hrest⟩ := h.requests r hr
    exact ⟨x, List.getElem?_append_left (List.getElem?_eq_some_iff.mp hx).1 ▸ hx, hrest⟩
  · refine h.idle v fun x hx => hv x ?_
    exact mem_append_left _ hx

theorem getElem?_set_cases {l : List (ObjsCall κ β)} {z : ObjsCall κ β} (h : (l.set c y)[c']? = some z) :
    c' = c ∧ z = y ∨ c' ≠ c ∧ l[c']? = some z := by
  rw [getElem?_set] at h
  split at h
  · next hc =>
    split at h
    · exact .inl ⟨hc.symm, (Option.some.inj h).symm⟩
    · cases h
  · next hc => exact .inr ⟨fun hx => hc hx.symm, h⟩

theorem flying_append (s : ObjsFetcher κ β) (r : ObjsRequest κ) (c : Nat) :
    (s.requests ++ [r]).filter (·.call = c) = s.flying c ++ if r.call = c then [r] else [] := by
  unfold flying
  rw [filter_append]
  congr 1
  by_cases hr : r.call = c
  · simp [hr]
  · simp [hr]

theorem Inv.send (h : Inv s) (ht : s.send c = .ok t) : Inv t := by
  unfold ObjsFetcher.send at ht
  cases hx : s.calls[c]? with
  | none =>
    rw [hx] at ht
    cases ht
  | some x =>
    rw [hx] at ht
    simp only at ht
    cases hsend : x.toSend with
    | nil =>
      rw [hsend] at ht
      cases ht
    | cons p rest =>
      rw [hsend] at ht
      cases ht
      have hok := h.calls c x hx
      have hact : x.returned = false := by
        cases hr : x.returned with
        | false => rfl
        | true =>
          have hnil := (hok.done hr).2
          rw [hsend] at hnil
          cases hnil
      obtain ⟨hlt, -⟩ := List.getElem?_eq_some_iff.mp hx
      refine ⟨fun c' z hz => ?_, fun r hr => ?_, fun v hv => ?_⟩
      · rcases getElem?_set_cases hz with ⟨rfl, rfl⟩ | ⟨hc, hz⟩
        · refine ⟨?_, hok.own, hok.active, fun hx => ?_⟩
          · show ((x.rets.map (·.request) ++ (s.requests ++ [_]).filter _).map asks ++ rest).Perm _
            have haccount := hok.account
            rw [hsend] at haccount
            rw [flying_append, if_pos rfl, ← append_assoc, map_append, append_assoc]
            exact haccount
          · rw [show x.returned = true from hx] at hact
            cases hact
        · refine (h.calls c' z hz).congr ?_ fun _ => ⟨rfl, rfl⟩
          show (s.requests ++ [_]).filter _ = _
          rw [flying_append, if_neg (Ne.symm hc), append_nil]
      · rcases mem_append.mp hr with hr | hr
        · obtain ⟨z, hz, hza, hzu⟩ := h.requests r hr
          show ∃ z, (s.calls.set c _)[r.call]? = some z ∧ _
          by_cases hc : r.call = c
          · rw [hc] at hz ⊢
            obtain rfl := Option.some.inj (hz.symm.trans hx)
            exact ⟨_, List.getElem?_set_self hlt, hza, hzu⟩
          · exact ⟨z, by rw [List.getElem?_set_ne (Ne.symm hc)]; exact hz, hza, hzu⟩
        · obtain rfl := mem_singleton.mp hr
          exact ⟨_, List.getElem?_set_self hlt, hact, rfl⟩
      · refine h.idle v fun z hz hza => ?_
        by_cases hzx : z = x
        · rw [hzx]
          exact hv { x with toSend := rest } (mem_set hlt _) hact
        · exact hv z (mem_set_of_ne hx hz hzx) hza

/-- **A reply finds its call.** -/
theorem Inv.reply_eq (h : Inv s) {i : Nat} {r : ObjsRequest κ} (hr : s.requests[i]? = some r) (bin : β) :
    ∃ x, s.calls[r.call]? = some x ∧ x.returned = false ∧
      x.upstreamPartId = r.fetchMeta.upstreamPartId ∧
      s.reply i bin = .ok { s with
        requests := s.requests.eraseIdx i
        calls := s.calls.set r.call { x with rets := x.rets ++ [⟨r, bin⟩] }
        recvFinished := update s.recvFinished x.upstreamPartId
          (s.recvFinished x.upstreamPartId + 1) } := by
  obtain ⟨x, hx, hact, hu⟩ := h.requests r (mem_of_getElem? hr)
  obtain ⟨hlt, hval⟩ := List.getElem?_eq_some_iff.mp hx
  have hptr := ((h.calls _ x hx).active hact).1
  refine ⟨x, hx, hact, hu, ?_⟩
  unfold reply fetchObjsReply
  rw [hr]
  simp only
  rw [← hu, hptr]
  simp only
  rw [modify_eq_set_getElem?, hx]
  rfl

theorem Inv.reply (h : Inv s) {i : Nat} {bin : β} (ht : s.reply i bin = .ok t) : Inv t := by
  cases hr : s.requests[i]? with
  | none =>
    unfold ObjsFetcher.reply at ht
    rw [hr] at ht
    cases ht
  | some r =>
    obtain ⟨x, hx, hact, hu, heq⟩ := h.reply_eq hr bin
    obtain rfl := Except.ok.inj (heq.symm.trans ht)
    obtain ⟨hlt, -⟩ := List.getElem?_eq_some_iff.mp hx
    have hperm := perm_cons_of_getElem? hr
    have hok := h.calls _ x hx
    have hfly : (s.flying r.call).Perm (r :: (s.requests.eraseIdx i).filter (·.call = r.call)) := by
      have hf := hperm.filter (·.call = r.call)
      rwa [filter_cons_of_pos (by simp)] at hf
    refine ⟨fun c' z hz => ?_, fun r' hr' => ?_, fun v hv => ?_⟩
    · rcases getElem?_set_cases hz with ⟨rfl, rfl⟩ | ⟨hc, hz⟩
      · refine ⟨?_, fun r' hr' => ?_, fun _ => ⟨(hok.active hact).1, ?_⟩, fun hx => ?_⟩
        · -- the request becomes a reply
          refine List.Perm.trans (List.Perm.append_right _ ?_) hok.account
          refine List.Perm.map asks ?_
          show ((x.rets ++ [(⟨r, bin⟩ : ObjsReply κ β)]).map ObjsReply.request ++ _).Perm _
          rw [map_append, append_assoc]
          exact List.Perm.append_left _ hfly.symm
        · rcases mem_append.mp hr' with hr' | hr'
          · exact hok.own r' hr'
          · obtain rfl := mem_singleton.mp hr'
            rfl
        · show update s.recvFinished x.upstreamPartId _ x.upstreamPartId =
            ((x.rets ++ [(⟨r, bin⟩ : ObjsReply κ β)]).length : Int)
          rw [update_self, (hok.active hact).2, length_append]
          rfl
        · rw [show x.returned = true from hx] at hact
          cases hact
      · refine (h.calls c' z hz).congr ?_ fun hza => ⟨rfl, update_of_ne ?_ _ _⟩
        · show (s.requests.eraseIdx i).filter _ = s.requests.filter _
          obtain ⟨hall, herase⟩ := split_of_getElem? hr
          conv_rhs => rw [hall]
          rw [herase, filter_append, filter_append,
            filter_cons_of_neg (by simpa using Ne.symm hc)]
        · intro hzu
          exact hc (h.eq_of_upstream hz hx hza hact hzu)
    · obtain ⟨z, hz, hza, hzu⟩ := h.requests r' (mem_of_mem_eraseIdx hr')
      show ∃ z, (s.calls.set r.call _)[r'.call]? = some z ∧ _
      by_cases hc : r'.call = r.call
      · rw [hc] at hz ⊢
        obtain rfl := Option.some.inj (hz.symm.trans hx)
        exact ⟨_, List.getElem?_set_self hlt, hza, hzu⟩
      · exact ⟨z, by rw [List.getElem?_set_ne (Ne.symm hc)]; exact hz, hza, hzu⟩
    · have hne : v ≠ x.upstreamPartId := by
        rintro rfl
        exact hv _ (mem_set hlt _) hact rfl
      refine (update_of_ne hne _ _).trans (h.idle v fun z hz hza => ?_)
      by_cases hzx : z = x
      · subst hzx
        exact Ne.symm hne
      · exact hv z (mem_set_of_ne hx hz hzx) hza

theorem wake_eq (hx : s.calls[c]? = some x) (hact : x.returned = false) (hsend : x.toSend = [])
    (hfull : s.recvFinished x.upstreamPartId = x.partToKeys.length) :
    s.wake c = .ok { s with
      recvBinstream := update s.recvBinstream x.upstreamPartId none
      recvFinished := update s.recvFinished x.upstreamPartId 0
      calls := s.calls.set c { x with returned := true } } := by
  have hready : x.returned = false ∧ x.toSend.length = 0 := ⟨hact, by rw [hsend]; rfl⟩
  unfold wake
  rw [hx]
  simp only
  rw [check_pos hready, check_pos hfull]
  rfl

theorem wake_cases (ht : s.wake c = .ok t) : ∃ x, s.calls[c]? = some x ∧ x.returned = false ∧
    x.toSend = [] ∧ s.recvFinished x.upstreamPartId = x.partToKeys.length ∧
    t = { s with
      recvBinstream := update s.recvBinstream x.upstreamPartId none
      recvFinished := update s.recvFinished x.upstreamPartId 0
      calls := s.calls.set c { x with returned := true } } := by
  unfold wake at ht
  cases hx : s.calls[c]? with
  | none =>
    rw [hx] at ht
    cases ht
  | some x =>
    rw [hx] at ht
    obtain ⟨_, h₁, ht⟩ := bind_eq_ok.mp ht
    obtain ⟨_, h₂, ht⟩ := bind_eq_ok.mp ht
    rw [check_eq_ok] at h₁ h₂
    exact ⟨x, rfl, h₁.1, length_eq_zero_iff.mp h₁.2, h₂, (Except.ok.inj ht).symm⟩

theorem Inv.wake (h : Inv s) (ht : s.wake c = .ok t) : Inv t := by
  obtain ⟨x, hx, hact, hsend, hfull, rfl⟩ := wake_cases ht
  obtain ⟨hlt, -⟩ := List.getElem?_eq_some_iff.mp hx
  have hok := h.calls c x hx
  -- as many replies as requests: none is under way
  have hfly : s.flying c = [] := by
    have hlen := hok.account.length_eq
    rw [hsend, append_nil, length_map, length_append, length_map] at hlen
    have hcount := (hok.active hact).2
    rw [hfull] at hcount
    exact length_eq_zero_iff.mp (by omega)
  refine ⟨fun c' z hz => ?_, fun r hr => ?_, fun v hv => ?_⟩
  · rcases getElem?_set_cases hz with ⟨rfl, rfl⟩ | ⟨hc, hz⟩
    · exact ⟨hok.account, hok.own, (fun hfalse => by cases hfalse),
        fun _ => ⟨hfly, hsend⟩⟩
    · refine (h.calls c' z hz).congr rfl fun hza => ?_
      have hne : z.upstreamPartId ≠ x.upstreamPartId :=
        fun hzu => hc (h.eq_of_upstream hz hx hza hact hzu)
      exact ⟨update_of_ne hne _ _, update_of_ne hne _ _⟩
  · obtain ⟨z, hz, hza, hzu⟩ := h.requests r hr
    refine ⟨z, ?_, hza, hzu⟩
    have hc : r.call ≠ c := by
      rintro rfl
      have hmem : r ∈ s.flying r.call := mem_filter.mpr ⟨hr, decide_eq_true rfl⟩
      rw [hfly] at hmem
      exact absurd hmem not_mem_nil
    show (s.calls.set c _)[r.call]? = some z
    rw [List.getElem?_set_ne (Ne.symm hc)]
    exact hz
  · show update s.recvFinished x.upstreamPartId 0 v = 0
    by_cases hvx : v = x.upstreamPartId
    · rw [hvx, update_self]
    · rw [update_of_ne hvx]
      refine h.idle v fun z hz hza => ?_
      by_cases hzx : z = x
      · subst hzx
        exact Ne.symm hvx
      · exact hv z (mem_set_of_ne hx hz hzx) hza

/-- A call that has returned has a reply to each of its requests. -/
theorem Inv.rets_perm (h : Inv s) (hx : s.calls[c]? = some x) (hret : x.returned = true) :
    (x.rets.map fun r => asks r.request).Perm x.partToKeys := by
  have hok := h.calls c x hx
  have haccount := hok.account
  rw [(hok.done hret).1, (hok.done hret).2, append_nil, append_nil, map_map] at haccount
  exact haccount

/-! ## Every run -/

theorem Inv.step (h : Inv s) {e : ObjsEvent κ β} (ha : s.Apart e) (ht : step s e = .ok t) : Inv t := by
  cases e with
  | fetchObjs planId u cid l =>
    cases ht
    exact h.fetchObjs ha
  | send c => exact h.send ht
  | reply i bin => exact h.reply ht
  | wake c => exact h.wake ht

theorem reachable_inv (hs : Reach step Apart (init : ObjsFetcher κ β) s) : Inv s :=
  hs.induct (P := Inv) inv_init fun _ _ _ _ hi ha hstep => hi.step ha hstep

end ObjsFetcher

open ObjsFetcher in
/-- **Object fetches do not mix**, if no two calls of one partition id overlap: the check of a reply passes,
every reply is to a request of the call it is given to, what a call asks for is replied to, under
way or still to be sent, and a call that returns has it all; it can return when nothing is left. -/
theorem fetchObjs_own (s : ObjsFetcher κ β)
    (hs : Reach ObjsFetcher.step ObjsFetcher.Apart ObjsFetcher.init s) :
    (∀ i < s.requests.length, ∀ bin, ∃ t, ObjsFetcher.step s (.reply i bin) = .ok t) ∧
    ∀ c x, s.calls[c]? = some x →
      (∀ r ∈ x.rets, r.request.call = c) ∧
      ((x.rets.map (·.request) ++ s.flying c).map asks ++ x.toSend).Perm x.partToKeys ∧
      (x.returned = true → (x.rets.map fun r => asks r.request).Perm x.partToKeys) ∧
      (x.returned = false → x.toSend = [] → s.flying c = [] →
        ∃ t, ObjsFetcher.step s (.wake c) = .ok t) := by
  have h := reachable_inv hs
  refine ⟨fun i hi bin => ?_, fun c x hx => ?_⟩
  · obtain ⟨x, -, -, -, heq⟩ := h.reply_eq (getElem?_eq_getElem hi) bin
    exact ⟨_, heq⟩
  · have hok := h.calls c x hx
    refine ⟨hok.own, hok.account, h.rets_perm hx, fun hact hsend hfly => ?_⟩
    · have hlen := hok.account.length_eq
      rw [hfly, hsend, append_nil, append_nil, length_map, length_map] at hlen
      have hfull : s.recvFinished x.upstreamPartId = x.partToKeys.length := by
        rw [(hok.active hact).2, hlen]
      exact ⟨_, wake_eq hx hact hsend hfull⟩

/-- Two maps that ask one partition each, one after the other. -/
def askInTurn : List (ObjsEvent Nat Nat) :=
  [.fetchObjs 1 0 7 [(5, 50)], .fetchObjs 1 1 7 [(5, 51), (6, 60)], .send 1, .send 0, .send 1,
    .reply 2 600, .reply 0 510, .reply 0 500, .wake 1]

theorem fetchObjs_own_askInTurn : ∃ (s : ObjsFetcher Nat Nat) (x : ObjsCall Nat Nat),
    s.calls[1]? = some x ∧ x.returned = true ∧
      (x.rets.map fun r => ObjsFetcher.asks r.request).Perm [(5, 51), (6, 60)] := by
  have hrun : Ends ObjsFetcher.step ObjsFetcher.init askInTurn fun s =>
      (s.calls.map fun x => (x.returned, x.partToKeys)) =
        [(false, [(5, 50)]), (true, [(5, 51), (6, 60)])] := by
    decide +kernel
  have hok : RunOk ObjsFetcher.step ObjsFetcher.Apart ObjsFetcher.init askInTurn := by
    decide +kernel
  obtain ⟨s, hs, hcalls⟩ := hrun
  have hget := congrArg (fun l => l[1]?) hcalls
  simp only [getElem?_map] at hget
  obtain ⟨x, hx, hval⟩ := Option.map_eq_some_iff.mp hget
  obtain ⟨hret, hasked⟩ := Prod.mk.inj hval
  have hall := ((fetchObjs_own s (reach_of_run_ok _ hok hs)).2 1 x hx).2.2.1 hret
  rw [hasked] at hall
  exact ⟨s, x, hx, hret, hall⟩

/-- Maps of two plans with partition id 0. -/
def askTogether : List (ObjsEvent Nat Nat) :=
  [.fetchObjs 1 0 7 [(5, 50)], .fetchObjs 2 0 8 [(6, 60)], .send 0, .send 1, .reply 0 500, .wake 1]

/-- The second call returns the reply to the first one, and the reply to it fails the check. -/
theorem fetchObjs_mixed :
    Ends ObjsFetcher.step ObjsFetcher.init askTogether
      (fun s => (s.calls.map fun x => (x.returned, x.rets.map fun r => r.request.call)) =
        [(false, []), (true, [0])]) ∧
    run ObjsFetcher.step ObjsFetcher.init (askTogether ++ [.reply 0 600]) = .error .entry := by
  constructor
  · decide +kernel
  · decide +kernel

end Tangram
