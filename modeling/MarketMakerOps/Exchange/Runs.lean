import MarketMakerOps.Exchange.Requests
import MarketMakerOps.Exchange.Sync

/-!
Runs of the venue.

* `session`: a new venue and the calls on it;
* `session_synced`: after every run with fewer than `2 ^ 64` accepted orders,
  tables and core are in step;
* `Synced.handle_total`: with assertions compiled out and room beyond the soft
  cap, a call on such a venue succeeds;
* `tables_match_book`: the two read as one statement about tables and book.
-/

namespace MarketMakerOps.Exchange

open Decimal Engine Fallible

variable {cap : Nat} {build : Build}

section Acks

variable (T : Tables) (msgs msgs' : List Sent)

theorem acks_append : acks (msgs ++ msgs') = acks msgs + acks msgs' := List.countP_append

/-- A message about no order acknowledges none. -/
theorem acks_eq_zero {msgs : List Sent} (h : ∀ m ∈ msgs, m.2.exchangeId? = none) :
    acks msgs = 0 := by
  refine List.countP_eq_zero.mpr fun m hm hack => ?_
  have hn := h m hm
  obtain ⟨c, m⟩ := m
  cases m <;> simp_all [Outbound.exchangeId?, Outbound.isAck]

theorem acks_routeFill (id : UInt64) (p q : UInt32) :
    acks (T.routeFill id p q).sent = acks T.sent := by
  cases hl : T.live id with
  | none => rw [Tables.routeFill_of_none hl]
  | some lo =>
    rw [(Tables.routeFill_spec hl).2.1, acks_append]
    rfl

theorem acks_onTrade (t : Trade) : acks (T.onTrade t).sent = acks T.sent := by
  rw [Tables.onTrade, acks_routeFill, acks_routeFill]

/-- The callback acknowledges nothing. -/
theorem acks_afterTrades (ts : List Trade) : acks (T.afterTrades ts).sent = acks T.sent := by
  induction ts generalizing T with
  | nil => rfl
  | cons t ts ih => exact (ih (T.onTrade t)).trans (acks_onTrade T t)

end Acks

section Step

variable {v v' : Venue cap} {a : PriorityBook cap} {n : Nat}

theorem Synced.cleared (h : Synced n v a) : Synced n v.cleared a :=
  h.quiet rfl rfl rfl fun _ _ => rfl

/-- Accepting an order sends one acknowledgement. -/
theorem Synced.acks_accept (h : Synced n v a) (hsent : v.tables.sent = []) {conn : ConnId}
    {cid : Bytes} {side : OrderSide} {p q : UInt32}
    (hsub : v.submit build conn cid side p q = .ok v') : acks v'.tables.sent = 1 := by
  obtain ⟨ts, a', -, -, hT, -⟩ := submit_spec h.rep h.wf hsub
  rw [hT, acks_afterTrades, entered_sent, hsent]
  rfl

/-- A call keeps tables and core in step; `n` counts the acknowledgements. -/
theorem Synced.handle (h : Synced n v a) (hsent : v.tables.sent = []) {ev : Event}
    (hv : v.handle build ev = .ok v') (hlt : n + acks v'.tables.sent < 2 ^ 64) :
    ∃ a', Synced (n + acks v'.tables.sent) v' a' := by
  cases handled_ok hv with
  | quiet result msgs book clock _ live record sent about =>
    cases result
    rw [sent, hsent, List.nil_append, acks_eq_zero about]
    exact ⟨a, h.quiet book clock live record⟩
  | accept accepts result =>
    rw [h.acks_accept hsent result.symm] at hlt ⊢
    obtain ⟨-, a', -, -, -, h'⟩ := h.accept hlt accepts result.symm
    exact ⟨a', h'⟩
  | cancel _ record _ result =>
    obtain ⟨book, hbook, hv'⟩ := bind_eq_ok.mp result.symm
    cases hv'
    rw [cancelled_sent, hsent]
    exact ⟨_, h.cancel record hbook⟩
  | drop result =>
    obtain ⟨a', h', -, -, -, hsent', -⟩ := post_of_ok (h.drop build _) result.symm
    rw [hsent', hsent]
    exact ⟨a', h'⟩

/-- The ids of the live orders are the ids of the resting ones. -/
theorem Synced.keys_perm (h : Synced n v a) : v.tables.byEngineId.keys.Perm
    ((v.book.resting .buy ++ v.book.resting .sell).map Order.orderId) := by
  have hids : (v.book.resting .buy ++ v.book.resting .sell).map Order.orderId =
      (a.queue .buy).map Resting.orderId ++ (a.queue .sell).map Resting.orderId := by
    have := fun s => h.rep.map_resting Order.orderId (fun _ => rfl) h.wf s
    rw [List.map_append, this, this]
    rfl
  rw [hids]
  refine (List.perm_ext_iff_of_nodup v.tables.byEngineId.nodupKeys
    (ids_nodup h.wf h.indexed .buy)).mpr fun id => ?_
  show id ∈ v.tables.byEngineId.keys ↔ _
  rw [← AList.mem_keys, ← AList.lookup_isSome, List.mem_append, List.mem_map, List.mem_map]
  constructor
  · intro hs
    obtain ⟨lo, hlo⟩ := Option.isSome_iff_exists.mp hs
    obtain ⟨s, e, he, rfl⟩ := h.holds.live id lo hlo
    cases s with
    | buy => exact Or.inl ⟨e, he, rfl⟩
    | sell => exact Or.inr ⟨e, he, rfl⟩
  · have hq : ∀ s, ∀ e ∈ a.queue s, (v.tables.byEngineId.lookup e.orderId).isSome := by
      intro s e he
      obtain ⟨lo, hlo, -⟩ := h.holds.queued s e he
      exact Option.isSome_iff_exists.mpr ⟨lo, hlo⟩
    rintro (⟨e, he, rfl⟩ | ⟨e, he, rfl⟩)
    · exact hq .buy e he
    · exact hq .sell e he

/-- The soft cap keeps the book below its capacity. -/
theorem Synced.restingCount_lt (h : Synced n v a)
    (hroom : v.tables.byEngineId.keys.length < v.softCap)
    (hcap : v.softCap < cap) : v.book.restingCount < cap := by
  have hlen := h.keys_perm.length_eq
  rw [List.length_map, List.length_append] at hlen
  rw [OrderBook.restingCount]
  omega

/-- With assertions compiled out and room beyond the soft cap, a call succeeds. -/
theorem Synced.handle_total (h : Synced n v a) (hcap : v.softCap < cap) (ev : Event) :
    ∃ v', v.handle .ndebug ev = .ok v' := by
  cases handled .ndebug v ev with
  | quiet result => exact ⟨_, result⟩
  | @accept conn payload cid side p q _ accepts result =>
    have hfree := h.rep.free_ne_nil h.wf (h.restingCount_lt accepts.room hcap)
    obtain ⟨r, hr⟩ := PriorityBook.add_succeeds hfree side p q v.nextEngineId conn
    obtain ⟨x, hx, -⟩ := (addLimitOrder_sim .ndebug side Tables.onTrade p q v.nextEngineId conn
      (v.entered conn cid side p q) h.rep (perm_finRange_iff.mp h.wf.slots).1).of_ok_right hr
    rw [result, Venue.submit, hx]
    exact ⟨_, rfl⟩
  | cancel _ _ _ result =>
    obtain ⟨b', hb', -⟩ := cancelOrder_sim .ndebug h.rep h.wf _
    rw [result, hb']
    exact ⟨_, rfl⟩
  | drop result =>
    obtain ⟨v', hv', -⟩ := h.drop .ndebug _
    exact ⟨v', result.trans hv'⟩

end Step

/-! ## Sessions -/

section Sessions

variable {s s' : Session cap} {ev : Event}

theorem Session.step_eq_ok : s.step build ev = .ok s' ↔
    ∃ v', s.venue.cleared.handle build ev = .ok v' ∧
      s' = ⟨s.history ++ [(ev, v'.tables.sent)], v'⟩ := by
  rw [Session.step, bind_eq_ok]
  exact exists_congr fun v' => and_congr_right fun _ =>
    ⟨fun h => (Except.ok.inj h).symm, fun h => congrArg Except.ok h.symm⟩

/-- A call sends its messages after all others. -/
theorem Session.messages_append {s s' : Session cap} {ev : Event} {msgs : List Sent}
    (h : s'.history = s.history ++ [(ev, msgs)]) : s'.messages = s.messages ++ msgs := by
  rw [Session.messages, h, List.flatMap_append, List.flatMap_cons, List.flatMap_nil,
    List.append_nil]
  rfl

theorem Session.messages_concat (s : Session cap) (ev : Event) (v' : Venue cap) :
    Session.messages ⟨s.history ++ [(ev, v'.tables.sent)], v'⟩ = s.messages ++ v'.tables.sent :=
  Session.messages_append rfl

theorem Session.accepted_concat (s : Session cap) (ev : Event) (v' : Venue cap) :
    Session.accepted ⟨s.history ++ [(ev, v'.tables.sent)], v'⟩ =
      s.accepted + acks v'.tables.sent := by
  rw [Session.accepted, Session.messages_concat, acks_append]
  rfl

theorem dropOwned_softCap {v v' : Venue cap} {ids : List UInt64}
    (h : v.dropOwned build ids = .ok v') : v'.softCap = v.softCap := by
  induction ids generalizing v with
  | nil => cases h; rfl
  | cons id ids ih =>
    obtain ⟨b, -, h⟩ := bind_eq_ok.mp h
    have hsoft := ih h
    exact hsoft

/-- The soft cap is fixed. -/
theorem handle_softCap {v v' : Venue cap} (h : v.handle build ev = .ok v') :
    v'.softCap = v.softCap := by
  cases handled_ok h with
  | quiet result _ _ _ soft =>
    cases result
    exact soft
  | accept _ result =>
    obtain ⟨x, -, hv'⟩ := bind_eq_ok.mp result.symm
    cases hv'
    rfl
  | cancel _ _ _ result =>
    obtain ⟨b, -, hv'⟩ := bind_eq_ok.mp result.symm
    cases hv'
    rfl
  | drop result =>
    obtain ⟨v₁, hv₁, hv'⟩ := bind_eq_ok.mp result.symm
    cases hv'
    have hsoft := dropOwned_softCap hv₁
    exact hsoft

/-- A new venue. -/
theorem Venue.new_eq_ok {softCap : Nat} {v₀ : Venue cap} (h : Venue.new cap softCap = .ok v₀) :
    v₀.softCap = softCap ∧ Exchange.Synced 0 v₀ (PriorityBook.empty cap) := by
  obtain ⟨b, hb, hv⟩ := bind_eq_ok.mp h
  cases hv
  obtain ⟨-, hrep, hwf⟩ := new_agree hb
  have hlive : ∀ id, Tables.live ⟨false, 0, ∅, ∅, []⟩ id = none := fun _ => rfl
  have hrecord : ∀ c cid, Tables.record ⟨false, 0, ∅, ∅, []⟩ c cid = none := fun _ _ => rfl
  refine ⟨rfl, hrep, hwf, by simp [PriorityBook.Indexed, PriorityBook.empty], rfl,
    ⟨?_, ?_, ?_, ?_⟩, ⟨by simp [PriorityBook.empty], ?_⟩⟩
  · intro id lo h
    rw [hlive] at h
    cases h
  · intro c cid r h
    rw [hrecord] at h
    cases h
  · intro c cid r h
    rw [hrecord] at h
    cases h
  · intro c cid r c' cid' r' h
    rw [hrecord] at h
    cases h
  · intro id lo h
    rw [hlive] at h
    cases h

/-- Tables and core are in step, the engine ids issued so far counted by the acknowledgements. -/
def Session.Synced (s : Session cap) : Prop := ∃ a, Exchange.Synced s.accepted s.venue a

theorem Session.Synced.step (h : s.Synced) (hstep : s.step build ev = .ok s')
    (hlt : s'.accepted < 2 ^ 64) : s'.Synced := by
  obtain ⟨a, h⟩ := h
  obtain ⟨v', hv', rfl⟩ := Session.step_eq_ok.mp hstep
  have hacc := s.accepted_concat ev v'
  rw [hacc] at hlt
  obtain ⟨a', h'⟩ := h.cleared.handle rfl hv' hlt
  exact ⟨a', hacc ▸ h'⟩

theorem Session.accepted_mono (hstep : s.step build ev = .ok s') : s.accepted ≤ s'.accepted := by
  obtain ⟨v', -, rfl⟩ := Session.step_eq_ok.mp hstep
  rw [Session.accepted_concat]
  exact Nat.le_add_right _ _

theorem Session.accepted_mono_run {events : List Event}
    (hrun : run (Session.step build) s events = .ok s') : s.accepted ≤ s'.accepted := by
  induction events generalizing s with
  | nil => cases hrun; exact le_rfl
  | cons ev events ih =>
    obtain ⟨s₁, hstep, hrun⟩ := bind_eq_ok.mp hrun
    exact le_trans (Session.accepted_mono hstep) (ih hrun)

/-- The calls of a run are its history. -/
theorem Session.history_of_run {events : List Event}
    (hrun : run (Session.step build) s events = .ok s') :
    ∃ H, s'.history = s.history ++ H ∧ H.map Prod.fst = events := by
  induction events generalizing s with
  | nil => cases hrun; exact ⟨[], (List.append_nil _).symm, rfl⟩
  | cons ev events ih =>
    obtain ⟨s₁, hstep, hrun⟩ := bind_eq_ok.mp hrun
    obtain ⟨v', -, rfl⟩ := Session.step_eq_ok.mp hstep
    obtain ⟨H, hH, hev⟩ := ih hrun
    refine ⟨(ev, v'.tables.sent) :: H, ?_, by rw [List.map_cons, hev]⟩
    rw [hH, List.append_assoc]
    rfl

/-- A new venue and the calls on it. -/
def session (build : Build) (cap softCap : Nat) (events : List Event) :
    Except Fault (Session cap) := do
  let v ← Venue.new cap softCap
  run (Session.step build) (Session.start v) events

variable {softCap : Nat} {events : List Event}

theorem session_concat : session build cap softCap (events ++ [ev]) =
    session build cap softCap events >>= fun s => s.step build ev := by
  simp only [session, run_append, bind_assoc]
  refine congrArg _ (funext fun v => congrArg _ (funext fun s => ?_))
  rw [run_cons]
  cases s.step build ev <;> rfl

/-- One more call. -/
theorem session_snoc (h : session build cap softCap events = .ok s)
    (hs : s.step build ev = .ok s') : session build cap softCap (events ++ [ev]) = .ok s' := by
  rw [session_concat, h]
  exact hs

/-- A reached session meets what new venues meet and calls keep. -/
theorem session_inv (Inv : Session cap → Prop)
    (hnew : ∀ v, Venue.new cap softCap = .ok v → Inv (Session.start v))
    (hstep : ∀ s ev s', Inv s → s.step build ev = .ok s' → Inv s')
    (h : session build cap softCap events = .ok s) : Inv s := by
  obtain ⟨v, hv, hrun⟩ := bind_eq_ok.mp h
  exact run_inv hstep (hnew v hv) hrun

/-- Cutting a reached session at one of its calls. -/
theorem session_split (h : session build cap softCap events = .ok s)
    {pre post : List (Event × List Sent)} {x : Event × List Sent}
    (hH : s.history = pre ++ x :: post) : ∃ s₁ s₂,
      session build cap softCap (pre.map Prod.fst) = .ok s₁ ∧ s₁.history = pre ∧
      s₁.step build x.1 = .ok s₂ ∧ s₂.history = pre ++ [x] ∧
      run (Session.step build) s₂ (post.map Prod.fst) = .ok s := by
  obtain ⟨v, hv, hrun⟩ := bind_eq_ok.mp h
  obtain ⟨H, hs, hev⟩ := Session.history_of_run hrun
  have hevents : events = pre.map Prod.fst ++ x.1 :: post.map Prod.fst := by
    rw [← hev, ← List.map_cons, ← List.map_append, ← hH, hs]
    rfl
  rw [hevents, run_append] at hrun
  obtain ⟨s₁, hrun₁, hrest⟩ := bind_eq_ok.mp hrun
  obtain ⟨s₂, hstep, hrun₂⟩ := bind_eq_ok.mp hrest
  obtain ⟨H₁, hs₁, hev₁⟩ := Session.history_of_run hrun₁
  obtain ⟨v', -, hs₂⟩ := Session.step_eq_ok.mp hstep
  obtain ⟨H₂, hs₃, -⟩ := Session.history_of_run hrun₂
  rw [show (Session.start v).history = [] from rfl, List.nil_append] at hs₁
  -- the histories of the two cuts agree by their lengths
  rw [hs₃, hs₂, hs₁, List.append_assoc] at hH
  have hlen : H₁.length = pre.length := by
    simpa using congrArg List.length hev₁
  obtain ⟨rfl, hx⟩ := List.append_inj hH hlen
  have hx := (List.cons.inj hx).1
  refine ⟨s₁, s₂, ?_, hs₁, hstep, ?_, hrun₂⟩
  · rw [session, hv]
    exact hrun₁
  · rw [hs₂, hs₁, ← hx]

theorem session_softCap (h : session build cap softCap events = .ok s) :
    s.venue.softCap = softCap := by
  refine session_inv (fun s => s.venue.softCap = softCap) (fun v hv => (Venue.new_eq_ok hv).1)
    (fun s ev s' hs hstep => ?_) h
  obtain ⟨v', hv', rfl⟩ := Session.step_eq_ok.mp hstep
  exact (handle_softCap hv').trans hs

/-- Tables and core are in step after fewer than `2 ^ 64` accepted orders. -/
theorem session_synced (h : session build cap softCap events = .ok s) (hlt : s.accepted < 2 ^ 64) :
    s.Synced := by
  refine session_inv (fun s => s.accepted < 2 ^ 64 → s.Synced)
    (fun v hv _ => ⟨_, (Venue.new_eq_ok hv).2⟩) (fun s ev s' hs hstep hlt => ?_) h hlt
  exact (hs (lt_of_le_of_lt (Session.accepted_mono hstep) hlt)).step hstep hlt

/-- A run evaluated. -/
theorem exists_session {p : Session cap → Bool}
    (h : (session build cap softCap events).toOption.any p = true) :
    ∃ s, session build cap softCap events = .ok s ∧ p s = true := exists_ok h

end Sessions

/-! ## Tables and book -/

namespace Venue

/-- A resting order and its entry in the table of live orders. -/
structure Mirror (o : Order cap) (lo : LiveOrder) : Prop where
  owner : lo.owner = o.participantId
  side : lo.side = o.side
  priceTicks : lo.priceTicks = o.price
  remaining : lo.remaining = o.quantity

/-- The price `p` is the best over the live orders of a side. -/
def BestLive (v : Venue cap) (side : Side) (p : UInt32) : Prop :=
  (∃ id lo, v.tables.live id = some lo ∧ lo.side = side ∧ lo.priceTicks = p) ∧
  ∀ id lo, v.tables.live id = some lo → lo.side = side → side.rank lo.priceTicks ≤ side.rank p

/-- Tables, book and published top of the book tell the same story. -/
structure InStep (v : Venue cap) : Prop where
  keys : v.tables.byEngineId.keys.Perm
    ((v.book.resting .buy ++ v.book.resting .sell).map Order.orderId)
  entries : ∀ side, ∀ o ∈ v.book.resting side, o.side = side ∧
    ∃ lo, v.tables.live o.orderId = some lo ∧ Mirror o lo
  records : ∀ c cid r, v.tables.record c cid = some r → (r.state = .resting ↔
    ∃ lo, v.tables.live r.engineId = some lo ∧ lo.owner = c ∧ lo.clientOrderId = cid)
  recorded : ∀ id lo, v.tables.live id = some lo → ∃ r,
    v.tables.record lo.owner lo.clientOrderId = some r ∧ r.engineId = id ∧ r.state = .resting
  bid : if v.currentTop.hasBid then v.BestLive .buy v.currentTop.bidTicks
    else ∀ id lo, v.tables.live id = some lo → lo.side ≠ .buy
  ask : if v.currentTop.hasAsk then v.BestLive .sell v.currentTop.askTicks
    else ∀ id lo, v.tables.live id = some lo → lo.side ≠ .sell

end Venue

section InStep

variable {v : Venue cap} {a : PriorityBook cap} {n : Nat}

/-- The level at the back of one side's vector is the best of that side's live orders. -/
theorem Synced.best (h : Synced n v a) (side : Side) :
    if ((v.book.levels side).getLast?).isSome then
      v.BestLive side (((v.book.levels side).getLast?.map PriceLevel.price).getD 0)
    else ∀ id lo, v.tables.live id = some lo → lo.side ≠ side := by
  have hmem : ∀ id lo, v.tables.live id = some lo → lo.side = side →
      ∃ e ∈ a.queue side, e.price = lo.priceTicks := by
    intro id lo hlo hside
    obtain ⟨s, e, he, rfl⟩ := h.holds.live id lo hlo
    obtain ⟨lo', hlo', hm⟩ := h.holds.queued s e he
    rw [hlo, Option.some_inj] at hlo'
    subst hlo'
    exact ⟨e, hside ▸ hm.side ▸ he, hm.priceTicks.symm⟩
  cases hP : a.queue side with
  | nil =>
    have hL := (h.rep.levels side).eq_nil_iff.mpr hP
    simp only [hL, List.getLast?_nil, Option.isSome_none, Bool.false_eq_true, if_false]
    intro id lo hlo hside
    obtain ⟨e, he, -⟩ := hmem id lo hlo hside
    rw [hP] at he
    cases he
  | cons e P =>
    obtain ⟨lo, hlo, hm⟩ := h.holds.queued side e (hP ▸ List.mem_cons_self)
    have hlast : ((v.book.levels side).getLast?).map PriceLevel.price = some e.price := by
      have hlevels := h.rep.levels side
      rw [hP] at hlevels
      obtain ⟨L, pl, q, P', hL, -, hl, -⟩ := hlevels.last
      rw [hL, List.getLast?_concat, Option.map_some, hl.price e List.mem_cons_self]
    obtain ⟨pl, hpl, hprice⟩ := Option.map_eq_some_iff.mp hlast
    simp only [hpl, Option.isSome_some, if_true, Option.map_some, Option.getD_some, hprice]
    refine ⟨⟨_, lo, hlo, hm.side, hm.priceTicks⟩, fun id lo' hlo' hside => ?_⟩
    obtain ⟨f, hf, hfp⟩ := hmem id lo' hlo' hside
    have hs := h.wf.sorted side
    rw [hP] at hf hs
    rw [← hfp]
    rcases List.mem_cons.mp hf with rfl | hf
    · exact le_rfl
    · exact (List.pairwise_cons.mp hs).1 f hf

theorem Synced.inStep (h : Synced n v a) : v.InStep := by
  refine ⟨h.keys_perm, ?_, ?_, ?_, h.best .buy, h.best .sell⟩
  · intro side o ho
    have hu := List.mem_map_of_mem (f := Order.unlinked) ho
    rw [h.rep.resting_eq h.wf] at hu
    obtain ⟨e, he, heo⟩ := List.mem_map.mp hu
    obtain ⟨lo, hlo, hm⟩ := h.holds.queued side e he
    have hfield : ∀ {β : Type} (f : Order cap → β), (∀ o, f o.unlinked = f o) →
        f (e.order side) = f o := fun f hf => by rw [heo, hf]
    have hid : e.orderId = o.orderId := hfield Order.orderId fun _ => rfl
    have hside : side = o.side := hfield Order.side fun _ => rfl
    refine ⟨hside.symm, lo, hid ▸ hlo, ⟨?_, ?_, ?_, ?_⟩⟩
    · exact hm.owner.trans (hfield Order.participantId fun _ => rfl)
    · exact hm.side.trans hside
    · exact hm.priceTicks.trans (hfield Order.price fun _ => rfl)
    · exact hm.remaining.trans (hfield Order.quantity fun _ => rfl)
  · intro c cid r hr
    refine ⟨h.recorded.resting c cid r hr, ?_⟩
    rintro ⟨lo, hlo, rfl, rfl⟩
    obtain ⟨-, r', hr', -, hst⟩ := h.recorded.entry _ lo hlo
    rw [hr, Option.some_inj] at hr'
    exact hr' ▸ hst
  · intro id lo hlo
    exact (h.recorded.entry id lo hlo).2

end InStep

/-- In every state reached by fewer than `2 ^ 64` accepted orders, tables and book are in step; with
assertions compiled out the next call succeeds. -/
theorem tables_match_book {softCap : Nat} (hcap : softCap < cap) {events : List Event}
    {s : Session cap} (h : session build cap softCap events = .ok s) (hlt : s.accepted < 2 ^ 64) :
    s.venue.InStep ∧ (build = .ndebug → ∀ ev, ∃ s', s.step build ev = .ok s') := by
  obtain ⟨a, hs⟩ := session_synced h hlt
  refine ⟨hs.inStep, ?_⟩
  rintro rfl ev
  have hsoft : s.venue.cleared.softCap < cap := (session_softCap h).symm ▸ hcap
  obtain ⟨v', hv'⟩ := hs.cleared.handle_total hsoft ev
  exact ⟨_, Session.step_eq_ok.mpr ⟨v', hv', rfl⟩⟩

/-- A client order id, and a timestamp. -/
def idA : Text := text "a" (by decide +kernel)

/-- Another client order id. -/
def idB : Text := text "b" (by decide +kernel)

/-- A bid for five, three of them sold. -/
def partialFill : List Event :=
  [.line 1 (newOrderLine idA .buy 100 5 idA), .line 2 (newOrderLine idA .sell 99 3 idA)]

theorem tables_match_book_partial_fill : ∃ s : Session 3, session .ndebug 3 2 partialFill = .ok s ∧
    s.venue.InStep ∧ ∀ ev, ∃ s', s.step .ndebug ev = .ok s' := by
  obtain ⟨s, hs, hlt⟩ : ∃ s : Session 3, session .ndebug 3 2 partialFill = .ok s ∧
      decide (s.accepted < 2 ^ 64) = true := exists_session (by decide +kernel)
  have h := tables_match_book (by decide) hs (of_decide_eq_true hlt)
  exact ⟨s, hs, h.1, h.2 rfl⟩

end MarketMakerOps.Exchange
