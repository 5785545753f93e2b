import MarketMakerOps.Exchange.SelfMatch
import MarketMakerOps.Ops.PositionState

/-!
Trading through the venue is zero-sum.

* `tradesFrom`, `Venue.tradeLog`: the trades of a call, each with the tables its
  callback meets;
* `Ledger`: every connection books its fills with the side it submitted;
* `Booked`: the ledger knows the side of every live order;
* `trades_balance`: no leg is lost, and all positions sum to zero.
-/

namespace MarketMakerOps.Exchange

open Decimal Engine Fallible Ops

variable {cap softCap : Nat} {build : Build}

/-! ## The legs of a trade -/

/-- The callback, recording the tables it meets each trade in. -/
def logTrade (t : Trade) (x : Tables × List (Tables × Trade)) : Tables × List (Tables × Trade) :=
  (x.1.onTrade t, x.2 ++ [(x.1, t)])

/-- The trades an accepted order causes. -/
def Venue.tradeLog (build : Build) (v : Venue cap) (conn : ConnId) (cid : Bytes) (side : OrderSide)
    (p q : UInt32) : List (Tables × Trade) :=
  match v.book.addLimitOrder build logTrade side p q v.nextEngineId conn
    (v.entered conn cid side p q, []) with
  | .ok (x, _) => x.2
  | .error _ => []

/-- Each trade with the tables it is met in. -/
def tradesFrom : Tables → List Trade → List (Tables × Trade)
  | _, [] => []
  | T, t :: ts => (T, t) :: tradesFrom (T.onTrade t) ts

/-- The messages the callback sends for a trade. -/
def legs (x : Tables × Trade) : List Sent := (x.1.onTrade x.2).sent.drop x.1.sent.length

theorem foldl_logTrade (T : Tables) (ts : List Trade) (log : List (Tables × Trade)) :
    ts.foldl (fun x t => logTrade t x) (T, log) = (T.afterTrades ts, log ++ tradesFrom T ts) := by
  induction ts generalizing T log with
  | nil => simp [tradesFrom, Tables.afterTrades]
  | cons t ts ih =>
    rw [List.foldl_cons, logTrade, ih, tradesFrom, List.append_assoc]
    rfl

/-- The connection that submitted an order: the sender of the one at hand, or the participant of a
resting one. -/
def Venue.Submitted (v : Venue cap) (conn : ConnId) (id : UInt64) (owner : ConnId) : Prop :=
  (id = v.nextEngineId ∧ owner = conn) ∨
    ∃ side, ∃ o ∈ v.book.resting side, o.orderId = id ∧ o.participantId = owner

/-- Both legs of a trade are in the table and reach the owners of the two orders. -/
structure BothLegs (v : Venue cap) (conn : ConnId) (T : Tables) (t : Trade) (b o : LiveOrder) :
    Prop where
  buy : T.live t.buyOrderId = some b
  sell : T.live t.sellOrderId = some o
  buyer : v.Submitted conn t.buyOrderId b.owner
  seller : v.Submitted conn t.sellOrderId o.owner
  owners : b.owner ≠ o.owner
  buyId : b.exchangeId = exchangeId t.buyOrderId
  sellId : o.exchangeId = exchangeId t.sellOrderId
  sent : legs (T, t) =
    [(b.owner, .fill b.exchangeId b.clientOrderId t.quantity t.price (b.remaining - t.quantity)),
      (o.owner, .fill o.exchangeId o.clientOrderId t.quantity t.price (o.remaining - t.quantity))]

section Legs

variable {T : Tables} {ts : List Trade} {t : Trade} {n : Nat}

theorem legs_eq {b o : LiveOrder} (h : T.Fillable t b o) : legs (T, t) = [b.fill t, o.fill t] := by
  rw [legs, Tables.onTrade_sent h, List.drop_left]

/-- The callback sends the legs of its trades and nothing else. -/
theorem sent_eq_legs (h : T.Fills ts) :
    (T.afterTrades ts).sent = T.sent ++ (tradesFrom T ts).flatMap legs := by
  induction ts generalizing T with
  | nil => exact (List.append_nil _).symm
  | cons t ts ih =>
    obtain ⟨⟨b, o, hf⟩, hts⟩ := h
    rw [tradesFrom, List.flatMap_cons, legs_eq hf, ← List.append_assoc, ← Tables.onTrade_sent hf]
    exact ih hts

theorem owner_of_onTrade {b o : LiveOrder} (h : T.Fillable t b o) {id : UInt64} {lo : LiveOrder}
    (hlo : (T.onTrade t).live id = some lo) : ∃ lo', T.live id = some lo' ∧ lo.owner = lo'.owner ∧
      lo.exchangeId = lo'.exchangeId ∧ lo.side = lo'.side := by
  have hpart : ∀ {lo' : LiveOrder}, lo'.after t.quantity = some lo → lo.owner = lo'.owner ∧
      lo.exchangeId = lo'.exchangeId ∧ lo.side = lo'.side := by
    intro lo' ha
    unfold LiveOrder.after at ha
    split at ha
    · cases ha
    · cases ha
      exact ⟨rfl, rfl, rfl⟩
  rw [Tables.onTrade_live h] at hlo
  split at hlo
  · next hid => exact ⟨b, hid ▸ h.buy, hpart hlo⟩
  · split at hlo
    · next hid => exact ⟨o, hid ▸ h.sell, hpart hlo⟩
    · exact ⟨lo, hlo, rfl, rfl, rfl⟩

/-- Every recorded trade finds both its orders, owned as they were at the start. -/
theorem mem_tradesFrom (hrec : T.Recorded n) (h : T.Fills ts) {x : Tables × Trade}
    (hx : x ∈ tradesFrom T ts) : ∃ b o, x.1.Fillable x.2 b o ∧ x.1.Recorded n ∧
      ∀ id lo, x.1.live id = some lo → ∃ lo', T.live id = some lo' ∧ lo.owner = lo'.owner := by
  induction ts generalizing T with
  | nil => cases hx
  | cons t ts ih =>
    obtain ⟨⟨b, o, hf⟩, hts⟩ := h
    rcases List.mem_cons.mp hx with rfl | hx
    · exact ⟨b, o, hf, hrec, fun id lo hlo => ⟨lo, hlo, rfl⟩⟩
    · obtain ⟨b', o', hf', hrec', hown⟩ := ih (hrec.onTrade hf) hts hx
      refine ⟨b', o', hf', hrec', fun id lo hlo => ?_⟩
      obtain ⟨lo₁, hlo₁, ho₁⟩ := hown id lo hlo
      obtain ⟨lo₂, hlo₂, ho₂, -⟩ := owner_of_onTrade hf hlo₁
      exact ⟨lo₂, hlo₂, ho₁.trans ho₂⟩

end Legs

section Log

variable {v v' : Venue cap} {a : PriorityBook cap} {n : Nat} {conn : ConnId} {payload cid : Bytes}
  {side : OrderSide} {p q : UInt32}

/-- The owner in the table is the participant in the book. -/
theorem Synced.submitted (h : Synced n v a) {id : UInt64} {lo : LiveOrder}
    (hlo : (v.entered conn cid side p q).live id = some lo) : v.Submitted conn id lo.owner := by
  rw [entered_live] at hlo
  split at hlo
  · next hid =>
    cases hlo
    exact Or.inl ⟨hid, rfl⟩
  · have hin := h.inStep
    have hkey : id ∈ v.tables.byEngineId.keys :=
      AList.mem_keys.mp (AList.lookup_isSome.mp (Option.isSome_iff_exists.mpr ⟨lo, hlo⟩))
    obtain ⟨o, ho, rfl⟩ := List.mem_map.mp (hin.keys.mem_iff.mp hkey)
    have hside : ∃ side, o ∈ v.book.resting side := by
      rcases List.mem_append.mp ho with ho | ho
      · exact ⟨_, ho⟩
      · exact ⟨_, ho⟩
    obtain ⟨side, ho⟩ := hside
    obtain ⟨-, lo', hlo', hm⟩ := hin.entries side o ho
    rw [hlo, Option.some_inj] at hlo'
    exact Or.inr ⟨side, o, ho, rfl, hlo' ▸ hm.owner.symm⟩

/-- The recorded trades are those of the call. -/
theorem tradeLog_eq (cid : Bytes) (hrep : v.book.Rep a) (hwf : a.WF) {ts : List Trade}
    {a' : PriorityBook cap}
    (hadd : a.add build side p q v.nextEngineId conn = .ok (ts, a')) :
    v.tradeLog build conn cid side p q = tradesFrom (v.entered conn cid side p q) ts := by
  obtain ⟨⟨x, b⟩, hb, hx, -⟩ := (addLimitOrder_sim build side logTrade p q v.nextEngineId conn
    (v.entered conn cid side p q, []) hrep (perm_finRange_iff.mp hwf.slots).1).of_ok_right hadd
  have hx : x = _ := hx
  rw [foldl_logTrade, List.nil_append] at hx
  simp only [Venue.tradeLog, hb, hx]

end Log

/-! ## Positions -/

/-- What the connections know of their orders, and their positions. -/
structure Ledger where
  sides : ConnId × Bytes → Option OrderSide
  positions : ConnId → PositionState

def Ledger.empty : Ledger := ⟨fun _ => none, fun _ => PositionState.zero⟩

def Event.side? : Event → Option OrderSide
  | .line _ payload => (parseInbound payload).side
  | .drop _ => none

/-- A connection notes the side of an order when it is acknowledged, and books a fill with it. -/
def Ledger.hear (side : Option OrderSide) (L : Ledger) (m : Sent) : Except ValueError Ledger :=
  match m.2 with
  | .ack _ e => .ok { L with sides := Function.update L.sides (m.1, e) side }
  | .fill e _ qty ticks _ => do
    let p ← (L.positions m.1).applyFill (L.sides (m.1, e)) qty.toNat (price ticks)
    pure { L with positions := Function.update L.positions m.1 p }
  | _ => .ok L

def Ledger.hearCall (L : Ledger) (x : Event × List Sent) : Except ValueError Ledger :=
  run (Ledger.hear x.1.side?) L x.2

def ledger (H : List (Event × List Sent)) : Except ValueError Ledger :=
  run Ledger.hearCall Ledger.empty H

/-- The ledger knows the side of every live order. -/
def Booked (L : Ledger) (T : Tables) : Prop :=
  ∀ id lo, T.live id = some lo → L.sides (lo.owner, lo.exchangeId) = some lo.side

section Positions

variable {L : Ledger} {T T' : Tables} {side : Option OrderSide} {t : Trade} {ts : List Trade}
  {conns : Finset ConnId} {n : Nat}

theorem Booked.mono (h : Booked L T) (hl : ∀ id lo, T'.live id = some lo → T.live id = some lo) :
    Booked L T' := fun id lo hlo => h id lo (hl id lo hlo)

theorem hear_silent {msgs : List Sent} (h : ∀ m ∈ msgs, m.2.exchangeId? = none) :
    run (Ledger.hear side) L msgs = .ok L := by
  induction msgs with
  | nil => rfl
  | cons m msgs ih =>
    obtain ⟨hm, hmsgs⟩ := List.forall_mem_cons.mp h
    have hone : L.hear side m = .ok L := by
      obtain ⟨c, m⟩ := m
      cases m with
      | reject => rfl
      | cancelReject => rfl
      | ack => cases hm
      | cancelAck => cases hm
      | fill => cases hm
    rw [run_cons, hone]
    exact ih hmsgs

/-- The fill of a live order is booked with its side. -/
theorem hear_fill {lo : LiveOrder} (hs : L.sides (lo.owner, lo.exchangeId) = some lo.side) :
    L.hear side (lo.fill t) =
      .ok ⟨L.sides, book L.positions lo.owner lo.side t.quantity.toNat (price t.price)⟩ := by
  simp only [Ledger.hear, LiveOrder.fill, hs, PositionState.applyFill_some]
  rfl

/-- Both legs of a trade are booked, on opposite sides. -/
theorem hear_legs (side : Option OrderSide) {b o : LiveOrder} (hf : T.Fillable t b o)
    (hbook : Booked L T)
    (hbal : Balanced conns L.positions) (hb : b.owner ∈ conns) (ho : o.owner ∈ conns) :
    ∃ L', run (Ledger.hear side) L [b.fill t, o.fill t] = .ok L' ∧ Booked L' (T.onTrade t) ∧
      Balanced conns L'.positions := by
  have hsb := hbook _ _ hf.buy
  have hso := hbook _ _ hf.sell
  set qty : ℚ := (t.quantity.toNat : ℚ)
  set P := book L.positions b.owner .buy qty (price t.price)
  refine ⟨⟨L.sides, book P o.owner .sell qty (price t.price)⟩, ?_, ?_,
    hbal.trade hb ho hf.owners qty (price t.price)⟩
  · have hbuy : L.hear side (b.fill t) = .ok ⟨L.sides, P⟩ := by rw [hear_fill hsb, hf.buySide]
    have hsell : Ledger.hear side ⟨L.sides, P⟩ (o.fill t) =
        .ok ⟨L.sides, book P o.owner .sell qty (price t.price)⟩ := by
      rw [hear_fill (L := ⟨L.sides, P⟩) hso, hf.sellSide]
    rw [run_cons, hbuy, ok_bind, run_cons, hsell]
    rfl
  · intro id lo hlo
    obtain ⟨lo', hlo', ho, he, hs⟩ := owner_of_onTrade hf hlo
    rw [ho, he, hs]
    exact hbook id lo' hlo'

theorem hear_trades (side : Option OrderSide) (hfills : T.Fills ts) (hbook : Booked L T)
    (hbal : Balanced conns L.positions)
    (hconns : ∀ m ∈ (tradesFrom T ts).flatMap legs, m.1 ∈ conns) :
    ∃ L', run (Ledger.hear side) L ((tradesFrom T ts).flatMap legs) = .ok L' ∧
      Booked L' (T.afterTrades ts) ∧ Balanced conns L'.positions := by
  induction ts generalizing T L with
  | nil => exact ⟨L, rfl, hbook, hbal⟩
  | cons t ts ih =>
    obtain ⟨⟨b, o, hf⟩, hts⟩ := hfills
    rw [tradesFrom, List.flatMap_cons, legs_eq hf] at hconns ⊢
    obtain ⟨L₁, hL₁, hbook₁, hbal₁⟩ := hear_legs side hf hbook hbal
      (hconns (b.fill t) (by simp)) (hconns (o.fill t) (by simp))
    obtain ⟨L₂, hL₂, hbook₂, hbal₂⟩ := ih hts hbook₁ hbal₁ fun m hm =>
      hconns m (List.mem_append_right _ hm)
    refine ⟨L₂, ?_, hbook₂, hbal₂⟩
    rw [run_append, hL₁]
    exact hL₂

end Positions

section Calls

variable {v v' : Venue cap} {a : PriorityBook cap} {n : Nat} {L : Ledger} {conns : Finset ConnId}
  {ev : Event}

/-- The acknowledgement tells the ledger the side of the new order. -/
theorem Booked.entered {conn : ConnId} {cid : Bytes} {side : OrderSide} {p q : UInt32}
    (h : Booked L v.tables) (hs : Synced n v a) :
    Booked { L with sides := Function.update L.sides (conn, exchangeId v.nextEngineId) (some side) }
      (v.entered conn cid side p q) := by
  intro id lo hlo
  rw [entered_live] at hlo
  split at hlo
  · cases hlo
    exact Function.update_self ..
  · next hid =>
    have hne : (lo.owner, lo.exchangeId) ≠ (conn, exchangeId v.nextEngineId) := by
      intro heq
      have hex := (hs.recorded.entry id lo hlo).1
      rw [(Prod.mk.inj heq).2, exchangeId_inj] at hex
      exact hid hex.symm
    show Function.update L.sides _ _ _ = _
    rw [Function.update_of_ne hne]
    exact h id lo hlo

/-- A call keeps the ledger balanced. -/
theorem Booked.call (h : Booked L v.tables) (hbal : Balanced conns L.positions) (hs : Synced n v a)
    (hsent : v.tables.sent = []) (hv : v.handle build ev = .ok v')
    (hlt : n + acks v'.tables.sent < 2 ^ 64) (hconns : ∀ m ∈ v'.tables.sent, m.1 ∈ conns) :
    ∃ L', L.hearCall (ev, v'.tables.sent) = .ok L' ∧ Booked L' v'.tables ∧
      Balanced conns L'.positions := by
  cases handled_ok hv with
  | quiet result msgs _ _ _ live _ sent about =>
    cases result
    rw [sent, hsent, List.nil_append]
    refine ⟨L, hear_silent about, h.mono fun id lo hlo => ?_, hbal⟩
    rwa [Tables.live, live] at hlo
  | @accept conn payload cid side p q _ accepts result =>
    rw [hs.acks_accept hsent result.symm] at hlt
    obtain ⟨ts, -, -, hfills, hT, -⟩ := hs.accept hlt accepts result.symm
    have hmsgs : v'.tables.sent = (conn, .ack cid (exchangeId v.nextEngineId)) ::
        (tradesFrom (v.entered conn cid side p q) ts).flatMap legs := by
      rw [hT, sent_eq_legs hfills, entered_sent, hsent]
      rfl
    rw [hmsgs] at hconns
    obtain ⟨L', hL', hbook', hbal'⟩ := hear_trades (some side) hfills
      (h.entered hs) hbal fun m hm => hconns m (List.mem_cons_of_mem _ hm)
    refine ⟨L', ?_, hT ▸ hbook', hbal'⟩
    have hside : (parseInbound payload).side = some side := accepts.onSide
    rw [hmsgs, Ledger.hearCall, Event.side?, hside, run_cons]
    exact hL'
  | cancel _ record _ result =>
    obtain ⟨book, -, hv'⟩ := bind_eq_ok.mp result.symm
    cases hv'
    rw [cancelled_sent, hsent]
    refine ⟨L, rfl, h.mono fun id lo hlo => ?_, hbal⟩
    rw [cancelled_live] at hlo
    split at hlo
    · cases hlo
    · exact hlo
  | drop result =>
    obtain ⟨a', -, -, hlive, -, hsent', -⟩ := post_of_ok (hs.drop build _) result.symm
    rw [hsent', hsent]
    refine ⟨L, rfl, h.mono fun id lo hlo => ?_, hbal⟩
    rw [hlive, Option.filter_eq_some_iff] at hlo
    exact hlo.1

variable {s : Session cap} {events : List Event}

/-- Every reached session has a balanced ledger. -/
theorem session_balanced (h : session build cap softCap events = .ok s)
    (hlt : s.accepted < 2 ^ 64) (hconns : ∀ m ∈ s.messages, m.1 ∈ conns) :
    ∃ L, ledger s.history = .ok L ∧ Booked L s.venue.tables ∧ Balanced conns L.positions := by
  refine (session_inv (fun s => s.accepted < 2 ^ 64 → (∀ m ∈ s.messages, m.1 ∈ conns) → s.Synced ∧
    ∃ L, ledger s.history = .ok L ∧ Booked L s.venue.tables ∧ Balanced conns L.positions)
    (fun v hv _ _ => ?_) (fun s ev s' hs hstep hlt hconns => ?_) h hlt hconns).2
  · have hsync := (Venue.new_eq_ok hv).2
    refine ⟨⟨_, hsync⟩, Ledger.empty, rfl, fun id lo hlo => ?_, Balanced.zero conns⟩
    obtain ⟨s, e, he, -⟩ := hsync.holds.live id lo hlo
    simp [PriorityBook.empty] at he
  · have hmono := Session.accepted_mono hstep
    obtain ⟨v', hv', rfl⟩ := Session.step_eq_ok.mp hstep
    rw [Session.messages_concat] at hconns
    obtain ⟨hsync, L, hL, hbook, hbal⟩ := hs (lt_of_le_of_lt hmono hlt) fun m hm =>
      hconns m (List.mem_append_left _ hm)
    refine ⟨hsync.step hstep hlt, ?_⟩
    obtain ⟨a, hsync⟩ := hsync
    rw [Session.accepted_concat] at hlt
    obtain ⟨L', hL', hbook', hbal'⟩ :=
      Booked.call (v := s.venue.cleared) hbook hbal hsync.cleared rfl
      hv' hlt fun m hm => hconns m (List.mem_append_right _ hm)
    refine ⟨L', ?_, hbook', hbal'⟩
    rw [ledger, run_append]
    have hL : run Ledger.hearCall Ledger.empty s.history = .ok L := hL
    rw [hL, ok_bind, run_cons, hL']
    rfl

end Calls

/-- With fewer than `2 ^ 64` accepted orders every trade has both its legs, and the positions of all
connections sum to zero. -/
theorem trades_balance {events : List Event} {s : Session cap}
    (h : session build cap softCap events = .ok s) (hlt : s.accepted < 2 ^ 64) :
    (∀ conn payload cid side p q, Accepts s.venue.cleared conn payload cid side p q →
      s.accepted + 1 < 2 ^ 64 → ∀ s', s.step build (.line conn payload) = .ok s' →
      let log := s.venue.cleared.tradeLog build conn cid side p q
      s'.venue.tables.sent =
        (conn, .ack cid (exchangeId s.venue.nextEngineId)) :: log.flatMap legs ∧
      ∀ x ∈ log, ∃ b o, BothLegs s.venue conn x.1 x.2 b o) ∧
    ∀ conns : Finset ConnId, (∀ m ∈ s.messages, m.1 ∈ conns) → ∃ L, ledger s.history = .ok L ∧
      ∑ c ∈ conns, (L.positions c).inventory = 0 ∧ ∑ c ∈ conns, (L.positions c).cash = 0 ∧
      ∀ fairValue, ∑ c ∈ conns, (L.positions c).markToMarketPnl fairValue = 0 := by
  constructor
  · intro conn payload cid side p q hacc hn s' hs'
    obtain ⟨a, hsync⟩ := session_synced h hlt
    obtain ⟨v', hv', rfl⟩ := Session.step_eq_ok.mp hs'
    obtain ⟨ts, a', hadd, hfills, hT, -⟩ :=
      hsync.cleared.accept hn hacc (hacc.handle.symm.trans hv')
    have hlog := tradeLog_eq (v := s.venue.cleared) cid hsync.cleared.rep hsync.wf hadd
    have hrec := hsync.cleared.recorded_entered side p q hn hacc.fresh
    refine ⟨?_, fun x hx => ?_⟩
    · show v'.tables.sent = _
      rw [hlog, hT, sent_eq_legs hfills]
      rfl
    · rw [hlog] at hx
      obtain ⟨b, o, hf, hrec', hown⟩ := mem_tradesFrom hrec hfills hx
      obtain ⟨b', hb', hbo⟩ := hown _ _ hf.buy
      obtain ⟨o', ho', hoo⟩ := hown _ _ hf.sell
      have hbuyer := hsync.cleared.submitted hb'
      have hseller := hsync.cleared.submitted ho'
      rw [← hbo] at hbuyer
      rw [← hoo] at hseller
      exact ⟨b, o, hf.buy, hf.sell, hbuyer, hseller, hf.owners, (hrec'.entry _ _ hf.buy).1,
        (hrec'.entry _ _ hf.sell).1, legs_eq hf⟩
  · intro conns hconns
    obtain ⟨L, hL, -, hbal⟩ := session_balanced h hlt hconns
    exact ⟨L, hL, hbal.inventory, hbal.cash, hbal.pnl⟩

theorem trades_balance_partial_fill : ∃ s : Session 3, session .ndebug 3 2 partialFill = .ok s ∧
    ∃ L, ledger s.history = .ok L ∧
      ∑ c ∈ ({1, 2} : Finset ConnId), (L.positions c).inventory = 0 := by
  obtain ⟨s, hs, hp⟩ : ∃ s : Session 3, session .ndebug 3 2 partialFill = .ok s ∧
      decide (s.accepted < 2 ^ 64 ∧ ∀ m ∈ s.messages, m.1 ∈ ({1, 2} : Finset ConnId)) = true :=
    exists_session (by decide +kernel)
  obtain ⟨hlt, hconns⟩ := of_decide_eq_true hp
  obtain ⟨L, hL, hsum, -⟩ := (trades_balance hs hlt).2 {1, 2} hconns
  exact ⟨s, hs, L, hL, hsum⟩

/-! ## After the counter has wrapped -/

theorem hear_acks (L : Ledger) (side : Option OrderSide) {msgs : List Sent}
    (h : ∀ m ∈ msgs, m.2.isAck = true) :
    ∃ L', run (Ledger.hear side) L msgs = .ok L' ∧ L'.positions = L.positions := by
  induction msgs generalizing L with
  | nil => exact ⟨L, rfl, rfl⟩
  | cons m msgs ih =>
    obtain ⟨hm, hmsgs⟩ := List.forall_mem_cons.mp h
    obtain ⟨c, m⟩ := m
    cases m with
    | ack cid e => exact ih (L := { L with sides := Function.update L.sides (c, e) side }) hmsgs
    | reject => cases hm
    | cancelAck => cases hm
    | cancelReject => cases hm
    | fill => cases hm

theorem ledger_acks {H : List (Event × List Sent)} {L : Ledger}
    (h : ∀ m ∈ H.flatMap Prod.snd, m.2.isAck = true) :
    ∃ L', run Ledger.hearCall L H = .ok L' ∧ L'.positions = L.positions := by
  induction H generalizing L with
  | nil => exact ⟨L, rfl, rfl⟩
  | cons x H ih =>
    rw [List.flatMap_cons, List.forall_mem_append] at h
    obtain ⟨L₁, hL₁, h₁⟩ := hear_acks L x.1.side? h.1
    obtain ⟨L₂, hL₂, h₂⟩ := ih (L := L₁) h.2
    refine ⟨L₂, ?_, h₂.trans h₁⟩
    have hcall : L.hearCall x = .ok L₁ := hL₁
    rw [run_cons, hcall]
    exact hL₂

/-- Connection 4 takes two of the parked offer. -/
def takeTwo : Event := .line 4 (newOrderLine idA .buy 100 2 idA)

def takeTwoTables : Tables :=
  { bidBelowTables with
    byEngineId := bidBelowTables.byEngineId.insert 2 ⟨4, idA.bytes, exchangeId 2, .buy, 100, 2⟩
    byConn := bidBelowTables.byConn.insert 4 (AList.insert idA.bytes ⟨.resting, exchangeId 2, 2⟩ ∅)
    sent := [(4, .ack idA.bytes (exchangeId 2))] }

/-- Two of five of the parked offer. -/
def wrongTrade : Trade := ⟨2, 1, 100, 2⟩

theorem takeTwoTables_sent : (takeTwoTables.afterTrades [wrongTrade]).sent =
    [(4, .ack idA.bytes (exchangeId 2)), (4, .fill (exchangeId 2) idA.bytes 2 100 0),
      (3, .fill (exchangeId 1) idA.bytes 2 100 0)] := by decide +kernel

def wrongSides (L : Ledger) : ConnId × Bytes → Option OrderSide :=
  Function.update (Function.update L.sides (3, exchangeId 1) (some .buy)) (4, exchangeId 2)
    (some .buy)

/-- Connections 3 and 4 both book a purchase. -/
theorem hear_wrong (L : Ledger) :
    (run Ledger.hearCall L [(bidBelow, bidBelowTables.sent)] >>= fun L =>
      run Ledger.hearCall L [(takeTwo, (takeTwoTables.afterTrades [wrongTrade]).sent)]) =
      .ok ⟨wrongSides L, book (book L.positions 4 .buy 2 (price 100)) 3 .buy 2 (price 100)⟩ := by
  have hbid : bidBelow.side? = some .buy := by
    rw [bidBelow, Event.side?, parseInbound_newOrder]
  have htake : takeTwo.side? = some .buy := by
    rw [takeTwo, Event.side?, parseInbound_newOrder]
  have h4 : wrongSides L (4, exchangeId 2) = some .buy := Function.update_self ..
  have hsides : Function.update (Function.update L.sides (3, exchangeId 1) (some .buy))
      (4, exchangeId 2) (some .buy) = wrongSides L := rfl
  rw [takeTwoTables_sent]
  simp only [bidBelowTables, run_cons, run_nil, Ledger.hearCall, Ledger.hear, hbid, htake, ok_bind,
    hsides, h4, PositionState.applyFill_some]
  rfl

/-- After the counter has wrapped the seller's leg of a trade reaches a buyer. -/
theorem trades_after_wrap : ∃ events, ∃ s : Session 4,
    session .debug 4 3 events = .ok s ∧ (∀ m ∈ s.messages, m.1 ∈ ({1, 2, 3, 4} : Finset ConnId)) ∧
    ∃ L, ledger s.history = .ok L ∧
      ∑ c ∈ ({1, 2, 3, 4} : Finset ConnId), (L.positions c).inventory = 4 := by
  obtain ⟨events, s, s₁, sequence, hs, hacks, hs₁, hH₁, h₁⟩ := exists_reissued .debug
  have hacc₁ := h₁.accepts 4
    (isNewOrder_line idA idA .buy 100 2 100 2 rfl rfl)
    (by decide) rfl (by decide) rfl
  obtain ⟨a, hadd₁⟩ : ∃ a, (bidBelowBook sequence).add .debug .buy 100 2 2 4 =
      .ok ([wrongTrade], a) := ⟨_, rfl⟩
  obtain ⟨s₂, hs₂, hH₂, -⟩ := h₁.accept (takeTwoTables.afterTrades [wrongTrade]) hacc₁ hadd₁
    fun _ => rfl
  obtain ⟨L, hL, hzero⟩ := ledger_acks (L := Ledger.empty) fun m hm => (hacks m hm).1
  refine ⟨_, s₂, session_snoc (session_snoc hs hs₁) hs₂, ?_, ?_⟩
  · intro m hm
    rw [Session.messages, hH₂, hH₁, List.flatMap_append, List.flatMap_append, List.mem_append,
      List.mem_append] at hm
    rcases hm with (hm | hm) | hm
    · rcases (hacks m hm).2 with h1 | h2
      · rw [h1]
        decide
      · rw [h2]
        decide
    · revert m
      decide +kernel
    · revert m
      decide +kernel
  · refine ⟨⟨wrongSides L,
      book (book L.positions 4 .buy 2 (price 100)) 3 .buy 2 (price 100)⟩, ?_, ?_⟩
    · rw [ledger, hH₂, hH₁, run_append, run_append]
      have hL : run Ledger.hearCall Ledger.empty s.history = .ok L := hL
      rw [hL, ok_bind]
      exact hear_wrong L
    · show ∑ c ∈ _,
        (book (book L.positions 4 .buy 2 (price 100)) 3 .buy 2 (price 100) c).inventory = 4
      rw [hzero]
      decide +kernel

end MarketMakerOps.Exchange
