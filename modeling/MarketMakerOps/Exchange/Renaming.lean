import MarketMakerOps.Exchange.Runs

/-!
Two venues that differ in names only: client order ids renamed connection by
connection, resting orders in other slots, hash tables enumerated in other orders.

* `Renaming`: the renaming of client order ids; `Enumeration`: the order in which
  `byEngineId_` is walked;
* `Venue.Renamed ρ v v'`: `v'` is `v` with its names changed;
* `Renamed.handleIn`: a call keeps them so, and sends the connections whose ids are
  not renamed the same messages;
* `Renamed.watched`: so does every sequence of calls.
-/

namespace MarketMakerOps.Exchange

open Decimal Engine Fallible

variable {cap : Nat} {build : Build}

/-! ## Enumerations -/

/-- An order in which a hash table's keys come up. -/
structure Enumeration where
  order : List UInt64 → List UInt64
  perm : ∀ l, (order l).Perm l

/-- The order of the stored entries. -/
def Enumeration.stored : Enumeration := ⟨id, fun l => List.Perm.refl l⟩

/-- One call, the table of live orders enumerated as given. -/
def Venue.handleIn (build : Build) (v : Venue cap) (o : Enumeration) :
    Event → Except Fault (Venue cap)
  | .line conn payload => v.handleLine build conn payload
  | .drop conn => v.dropIn build conn (o.order (v.owned conn))

theorem handle_eq_handleIn (v : Venue cap) (ev : Event) :
    v.handle build ev = v.handleIn build .stored ev := by cases ev <;> rfl

/-- What the connections in `seen` are sent by some calls, and the published
top of the book after each. -/
def Venue.watched (build : Build) (seen : ConnId → Bool) :
    Venue cap → List (Event × Enumeration) → Except Fault (List (List Sent × Top))
  | _, [] => .ok []
  | v, (ev, o) :: calls => do
    let v ← v.cleared.handleIn build o ev
    let rest ← watched build seen v calls
    pure ((v.tables.sent.filter fun m => seen m.1, v.currentTop) :: rest)

/-! ## Renamings -/

/-- Client order ids renamed, those of each connection apart; the
connections in `seen` keep theirs. -/
structure Renaming (seen : ConnId → Bool) where
  name : ConnId → Bytes → Bytes
  injective : ∀ c, Function.Injective (name c)
  fixed : ∀ c, seen c = true → ∀ cid, name c cid = cid

theorem Renaming.name_iff {seen : ConnId → Bool} (ρ : Renaming seen) {c c' : ConnId}
    {cid cid' : Bytes} : (c' = c ∧ ρ.name c' cid' = ρ.name c cid) ↔ c' = c ∧ cid' = cid :=
  and_congr_right fun hc => by rw [hc]; exact (ρ.injective c).eq_iff

/-- No id renamed. -/
def Renaming.none (seen : ConnId → Bool) : Renaming seen :=
  ⟨fun _ cid => cid, fun _ _ _ h => h, fun _ _ _ => rfl⟩

def InboundMessage.rename (f : Bytes → Bytes) (m : InboundMessage) : InboundMessage :=
  { m with clientOrderId := m.clientOrderId.map f }

/-- A request whose client order id the venue looks up. -/
def InboundMessage.Names (m : InboundMessage) : Prop :=
  m.parseError = none ∧ (m.type = .newOrder ∨ m.type = .cancel)

variable {seen : ConnId → Bool} {ρ : Renaming seen}

def LiveOrder.rename (ρ : Renaming seen) (lo : LiveOrder) : LiveOrder :=
  { lo with clientOrderId := ρ.name lo.owner lo.clientOrderId }

/-- The same call with its client order id renamed. -/
inductive Event.Renamed (ρ : Renaming seen) : Event → Event → Prop
  | line {c : ConnId} {p p' : Bytes}
      (parsed : parseInbound p' = (parseInbound p).rename (ρ.name c)) :
      Renamed ρ (.line c p) (.line c p')
  | same {c : ConnId} {p : Bytes} (silent : ¬ (parseInbound p).Names) :
      Renamed ρ (.line c p) (.line c p)
  | drop {c : ConnId} : Renamed ρ (.drop c) (.drop c)

/-- The tables with all client order ids renamed, the same messages sent to `seen`. -/
structure Tables.Renamed (ρ : Renaming seen) (T T' : Tables) : Prop where
  lastTrade : T'.hasLastTrade = T.hasLastTrade
  lastTicks : T'.lastTradeTicks = T.lastTradeTicks
  live : ∀ id, T'.live id = (T.live id).map (LiveOrder.rename ρ)
  record : ∀ c cid, T'.record c (ρ.name c cid) = T.record c cid
  sent : (T'.sent.filter fun m => seen m.1) = T.sent.filter fun m => seen m.1

namespace Tables

theorem markRecord_last (T : Tables) (c : ConnId) (cid : Bytes) (st : OrderState) :
    (T.markRecord c cid st).hasLastTrade = T.hasLastTrade ∧
      (T.markRecord c cid st).lastTradeTicks = T.lastTradeTicks := by
  unfold markRecord
  split
  · exact ⟨rfl, rfl⟩
  · split <;> exact ⟨rfl, rfl⟩

variable {T T' : Tables}

theorem Renamed.send (h : T.Renamed ρ T') (c : ConnId) {m m' : Outbound}
    (hm : seen c = true → m' = m) : (T.send c m).Renamed ρ (T'.send c m') := by
  refine ⟨h.lastTrade, h.lastTicks, h.live, h.record, ?_⟩
  rw [Tables.send, Tables.send, List.filter_append, List.filter_append, h.sent]
  refine congrArg _ ?_
  cases hc : seen c with
  | true => rw [hm hc]
  | false => simp [hc]

theorem Renamed.markRecord (h : T.Renamed ρ T') (c : ConnId) (cid : Bytes) (st : OrderState) :
    (T.markRecord c cid st).Renamed ρ (T'.markRecord c (ρ.name c cid) st) := by
  obtain ⟨h1, h2⟩ := markRecord_last T c cid st
  obtain ⟨h1', h2'⟩ := markRecord_last T' c (ρ.name c cid) st
  refine ⟨h1'.trans (h.lastTrade.trans h1.symm), h2'.trans (h.lastTicks.trans h2.symm),
    fun id => ?_, fun c' cid' => ?_, ?_⟩
  · have hlive := h.live id
    rwa [Tables.live, Tables.live, ← markRecord_byEngineId T c cid st,
      ← markRecord_byEngineId T' c (ρ.name c cid) st] at hlive
  · rw [record_markRecord, record_markRecord, h.record, h.record]
    simp only [ρ.name_iff]
  · rw [markRecord_sent, markRecord_sent, h.sent]

theorem Renamed.routeFill (h : T.Renamed ρ T') (id : UInt64) (p q : UInt32) :
    (T.routeFill id p q).Renamed ρ (T'.routeFill id p q) := by
  have hlive := h.live id
  cases hl : T.live id with
  | none =>
    rw [hl] at hlive
    rw [routeFill_of_none hl, routeFill_of_none hlive]
    exact h
  | some lo =>
    rw [hl] at hlive
    simp only [Tables.live] at hl hlive
    have hr : ∀ x : LiveOrder, (if x.remaining > q then x.remaining - q else 0) =
        remainingAfter x q := fun _ => rfl
    have hleft : remainingAfter (LiveOrder.rename ρ lo) q = remainingAfter lo q := rfl
    simp only [Tables.routeFill, hl, hlive, Option.map_some, hr, hleft]
    generalize remainingAfter lo q = left
    have hs : (T.send lo.owner (.fill lo.exchangeId lo.clientOrderId q p left)).Renamed ρ
        (T'.send lo.owner (.fill lo.exchangeId (ρ.name lo.owner lo.clientOrderId) q p left)) :=
      h.send lo.owner fun hc => by rw [ρ.fixed _ hc]
    split
    · have hm := hs.markRecord lo.owner lo.clientOrderId .filled
      refine ⟨hm.lastTrade, hm.lastTicks, fun id' => ?_, hm.record, hm.sent⟩
      have hid := hm.live id'
      simp only [Tables.live, lookup_erase_ite] at hid ⊢
      split
      · rfl
      · exact hid
    · refine ⟨hs.lastTrade, hs.lastTicks, fun id' => ?_, hs.record, hs.sent⟩
      have hid := hs.live id'
      simp only [Tables.live, lookup_insert_ite] at hid ⊢
      split
      · rfl
      · exact hid

theorem Renamed.afterTrades (h : T.Renamed ρ T') (ts : List Trade) :
    (T.afterTrades ts).Renamed ρ (T'.afterTrades ts) := by
  induction ts generalizing T T' with
  | nil => exact h
  | cons t ts ih =>
    have hlast : Renamed ρ { T with lastTradeTicks := t.price, hasLastTrade := true }
        { T' with lastTradeTicks := t.price, hasLastTrade := true } :=
      ⟨rfl, rfl, h.live, h.record, h.sent⟩
    exact ih ((hlast.routeFill t.buyOrderId t.price t.quantity).routeFill t.sellOrderId t.price
      t.quantity)

/-- The self-cross check looks for one live order. -/
theorem wouldSelfCross_iff {c : ConnId} {side : OrderSide} {p : UInt32} :
    T.wouldSelfCross c side p = true ↔ ∃ id lo, T.live id = some lo ∧ lo.owner = c ∧
      ((side = .buy ∧ lo.side = .sell ∧ p ≥ lo.priceTicks) ∨
        (side = .sell ∧ lo.side = .buy ∧ p ≤ lo.priceTicks)) := by
  simp only [wouldSelfCross, List.any_eq_true, decide_eq_true_eq, live]
  constructor
  · rintro ⟨⟨id, lo⟩, hm, hlo⟩
    exact ⟨id, lo, AList.mem_lookup_iff.mpr hm, hlo⟩
  · rintro ⟨id, lo, hl, hlo⟩
    exact ⟨⟨id, lo⟩, AList.mem_lookup_iff.mp hl, hlo⟩

theorem Renamed.wouldSelfCross (h : T.Renamed ρ T') (c : ConnId) (side : OrderSide) (p : UInt32) :
    T'.wouldSelfCross c side p = T.wouldSelfCross c side p := by
  rw [Bool.eq_iff_iff, wouldSelfCross_iff, wouldSelfCross_iff]
  refine exists_congr fun id => ?_
  rw [h.live]
  cases T.live id with
  | none => simp
  | some lo => simp [LiveOrder.rename]

theorem Renamed.mem (h : T.Renamed ρ T') (id : UInt64) :
    id ∈ T'.byEngineId ↔ id ∈ T.byEngineId := by
  rw [← AList.lookup_isSome, ← AList.lookup_isSome]
  show (T'.live id).isSome = true ↔ (T.live id).isSome = true
  rw [h.live, Option.isSome_map]

/-- The same number of live orders. -/
theorem Renamed.length_keys (h : T.Renamed ρ T') :
    T'.byEngineId.keys.length = T.byEngineId.keys.length :=
  ((List.perm_ext_iff_of_nodup T'.byEngineId.nodupKeys T.byEngineId.nodupKeys).mpr fun id =>
    AList.mem_keys.symm.trans ((h.mem id).trans AList.mem_keys)).length_eq

end Tables

theorem InboundMessage.rename_id (m : InboundMessage) {f : Bytes → Bytes}
    (hf : ∀ cid, f cid = cid) : m.rename f = m := by
  rw [InboundMessage.rename, show f = id from funext hf, Option.map_id]
  rfl

/-- Nothing renamed, every call is its own renaming. -/
theorem Event.renamed_none (ev : Event) (seen : ConnId → Bool) :
    Event.Renamed (Renaming.none seen) ev ev := by
  cases ev with
  | line c p => exact .line (InboundMessage.rename_id _ fun _ => rfl).symm
  | drop c => exact .drop

/-! ## Venues -/

namespace Venue

/-- The same venue with its names changed. -/
structure Renamed (ρ : Renaming seen) (v v' : Venue cap) : Prop where
  soft : v'.softCap = v.softCap
  clock : v'.nextEngineId = v.nextEngineId
  tables : v.tables.Renamed ρ v'.tables
  books : ∃ π a a', v.book.Rep a ∧ v'.book.Rep a' ∧ a.WF ∧ a'.WF ∧ PriorityBook.Relocated π a a'

/-- A sound venue, nothing renamed. -/
theorem Renamed.refl {v : Venue cap} (h : v.book.Sound) : v.Renamed (Renaming.none seen) v := by
  obtain ⟨a, hrep, hwf⟩ := h
  refine ⟨rfl, rfl, ⟨rfl, rfl, fun id => ?_, fun _ _ => rfl, rfl⟩, _, a, a, hrep, hrep, hwf, hwf,
    PriorityBook.Relocated.refl a⟩
  cases v.tables.live id <;> rfl

/-- An empty venue is every renaming of itself. -/
theorem Renamed.new {softCap : Nat} {v : Venue cap} (h : Venue.new cap softCap = .ok v) :
    v.Renamed ρ v := by
  obtain ⟨b, hb, hv⟩ := bind_eq_ok.mp h
  cases hv
  obtain ⟨-, hrep, hwf⟩ := new_agree hb
  exact ⟨rfl, rfl, ⟨rfl, rfl, fun _ => rfl, fun _ _ => rfl, rfl⟩, _, _, _, hrep, hrep, hwf, hwf,
    PriorityBook.Relocated.refl _⟩

section Calls

variable {v v' : Venue cap}

theorem Renamed.send (h : v.Renamed ρ v') (c : ConnId) {m m' : Outbound}
    (hm : seen c = true → m' = m) : (v.send c m).Renamed ρ (v'.send c m') :=
  ⟨h.soft, h.clock, h.tables.send c hm, h.books⟩

theorem Renamed.cleared (h : v.Renamed ρ v') : v.cleared.Renamed ρ v'.cleared :=
  ⟨h.soft, h.clock, ⟨h.tables.lastTrade, h.tables.lastTicks, h.tables.live, h.tables.record, rfl⟩,
    h.books⟩

/-- The best price of a side is read off the queue. -/
theorem best_of_rep {b : OrderBook cap} {a : PriorityBook cap} (h : b.Rep a) (s : Side) :
    ((b.levels s).getLast?).map PriceLevel.price = ((a.queue s).head?).map Resting.price := by
  cases hP : a.queue s with
  | nil =>
    have hL := (h.levels s).eq_nil_iff.mpr hP
    rw [hL]
    rfl
  | cons e P =>
    have hlevels := h.levels s
    rw [hP] at hlevels
    obtain ⟨L, pl, q, P', hL, -, hl, -⟩ := hlevels.last
    rw [hL, List.getLast?_concat, Option.map_some, ← hl.price e List.mem_cons_self]
    rfl

/-- The published top shows no name. -/
theorem Renamed.top (h : v.Renamed ρ v') : v'.currentTop = v.currentTop := by
  obtain ⟨π, a, a', hrep, hrep', -, -, hmoved⟩ := h.books
  have hbest : ∀ s, ((v'.book.levels s).getLast?).map PriceLevel.price =
      ((v.book.levels s).getLast?).map PriceLevel.price := by
    intro s
    rw [best_of_rep hrep s, best_of_rep hrep' s, hmoved.queue, List.head?_map, Option.map_map]
    rfl
  have hsome : ∀ s, ((v'.book.levels s).getLast?).isSome = ((v.book.levels s).getLast?).isSome := by
    intro s
    rw [← Option.isSome_map (f := PriceLevel.price), hbest s, Option.isSome_map]
  have hbid := hbest .buy
  have hask := hbest .sell
  have hbid' := hsome .buy
  have hask' := hsome .sell
  simp only [OrderBook.levels] at hbid hask hbid' hask'
  simp only [currentTop, OrderBook.bestBid, OrderBook.bestAsk, hbid, hask, hbid', hask',
    h.tables.lastTrade, h.tables.lastTicks]

theorem Renamed.entered (h : v.Renamed ρ v') (c : ConnId) (cid : Bytes) (side : OrderSide)
    (p q : UInt32) :
    (v.entered c cid side p q).Renamed ρ (v'.entered c (ρ.name c cid) side p q) := by
  refine ⟨h.tables.lastTrade, h.tables.lastTicks, fun id => ?_, fun c' cid' => ?_, ?_⟩
  · rw [entered_live, entered_live, h.clock, h.tables.live]
    split
    · rw [Venue.newOrder, Venue.newOrder, h.clock]
      rfl
    · rfl
  · rw [entered_record, entered_record, h.clock, h.tables.record]
    simp only [ρ.name_iff]
  · have hsent : (v.tables.send c (.ack cid (exchangeId v.nextEngineId))).Renamed ρ
        (v'.tables.send c (.ack (ρ.name c cid) (exchangeId v.nextEngineId))) :=
      h.tables.send c fun hc => by rw [ρ.fixed c hc]
    rw [entered_sent, entered_sent, h.clock]
    exact hsent.sent

/-- An accepted order trades alike. -/
theorem Renamed.submit (h : v.Renamed ρ v') (c : ConnId) (cid : Bytes) (side : OrderSide)
    (p q : UInt32) : Sim (Renamed ρ) (v.submit build c cid side p q)
      (v'.submit build c (ρ.name c cid) side p q) := by
  obtain ⟨π, a, a', hrep, hrep', hwf, hwf', hmoved⟩ := h.books
  have hsim := addLimitOrder_sim build side Tables.onTrade p q v.nextEngineId c
    (v.entered c cid side p q) hrep (perm_finRange_iff.mp hwf.slots).1
  have hsim' := addLimitOrder_sim build side Tables.onTrade p q v.nextEngineId c
    (v'.entered c (ρ.name c cid) side p q) hrep' (perm_finRange_iff.mp hwf'.slots).1
  have hbook := hmoved.add hwf hwf' build side p q v.nextEngineId c
  rw [Venue.submit, Venue.submit, h.clock]
  cases hadd : a.add build side p q v.nextEngineId c with
  | error f =>
    rw [hsim.of_error_right hadd, hsim'.of_error_right (hbook.of_error_left hadd)]
    exact rfl
  | ok y =>
    obtain ⟨⟨ts, b'⟩, hadd', hts, π', hmoved'⟩ := hbook.of_ok_left hadd
    obtain ⟨⟨T, b⟩, hx, hT, hb⟩ := hsim.of_ok_right hadd
    obtain ⟨⟨T', b₁⟩, hx', hT', hb'⟩ := hsim'.of_ok_right hadd'
    have hT : T = (v.entered c cid side p q).afterTrades y.1 := hT
    have hT' : T' = (v'.entered c (ρ.name c cid) side p q).afterTrades ts := hT'
    have hts : y.1 = ts := hts
    rw [hx, hx', hT, hT', hts]
    exact ⟨h.soft, rfl, (h.entered c cid side p q).afterTrades ts, π', y.2, b', hb, hb',
      hwf.add hadd, hwf'.add hadd', hmoved'⟩

/-- Creating the connection's records first makes no difference. -/
theorem Renamed.touch (h : v.Renamed ρ v') (c : ConnId) : Renamed ρ
    { v with tables := { v.tables with
      byConn := v.tables.byConn.insert c ((v.tables.byConn.lookup c).getD ∅) } }
    { v' with tables := { v'.tables with
      byConn := v'.tables.byConn.insert c ((v'.tables.byConn.lookup c).getD ∅) } } := by
  refine ⟨h.soft, h.clock, ⟨h.tables.lastTrade, h.tables.lastTicks, h.tables.live,
    fun c' cid => ?_, h.tables.sent⟩, h.books⟩
  rw [record_touch, record_touch, h.tables.record]

theorem Renamed.handleNewOrder (h : v.Renamed ρ v') (c : ConnId) (m : InboundMessage) :
    Sim (Renamed ρ) (v.handleNewOrder build c m)
      (v'.handleNewOrder build c (m.rename (ρ.name c))) := by
  have hsend : ∀ x x', (seen c = true → x' = x) →
      Sim (Renamed ρ) (ε := Fault) (.ok (v.send c x)) (.ok (v'.send c x')) :=
    fun x x' hx => h.send c hx
  have hreject : ∀ cid reason, seen c = true →
      Outbound.reject (ρ.name c cid) reason = .reject cid reason :=
    fun cid reason hc => by rw [ρ.fixed c hc]
  unfold Venue.handleNewOrder
  simp only [InboundMessage.rename]
  cases m.clientOrderId with
  | none => exact hsend _ _ fun _ => rfl
  | some cid =>
    simp only [Option.map_some]
    split
    · exact hsend _ _ (hreject cid _)
    · cases m.side with
      | none => exact hsend _ _ (hreject cid _)
      | some side =>
        cases m.priceTicks with
        | none => exact hsend _ _ (hreject cid _)
        | some p =>
          cases m.qty with
          | none => exact hsend _ _ (hreject cid _)
          | some q =>
            simp only
            split
            · exact hsend _ _ (hreject cid _)
            · have hmem : ρ.name c cid ∈ (v'.tables.byConn.lookup c).getD ∅ ↔
                  cid ∈ (v.tables.byConn.lookup c).getD ∅ := by
                rw [← not_iff_not, ← record_eq_none, ← record_eq_none, h.tables.record]
              have hkeys : v'.tables.byEngineId.keys.length ≥ v'.softCap ↔
                  v.tables.byEngineId.keys.length ≥ v.softCap := by
                rw [h.tables.length_keys, h.soft]
              have hcross := (h.touch c).tables.wouldSelfCross c side p
              simp only [hmem, hkeys, hcross]
              split
              · exact (h.touch c).send c (hreject cid _)
              · split
                · exact (h.touch c).send c (hreject cid _)
                · split
                  · exact (h.touch c).send c (hreject cid _)
                  · exact (h.touch c).submit c cid side p q

/-- The handler, by the record of the order. -/
theorem handleCancel_eq (v : Venue cap) (conn : ConnId) (m : InboundMessage) :
    v.handleCancel build conn m =
      match m.clientOrderId with
      | none => .ok (v.send conn (.cancelReject [] .notFound))
      | some cid =>
        match v.tables.record conn cid with
        | none => .ok (v.send conn (.cancelReject cid .notFound))
        | some r =>
          match r.state with
          | .filled => .ok (v.send conn (.cancelReject cid .alreadyFilled))
          | .cancelled => .ok (v.send conn (.cancelReject cid .alreadyCancelled))
          | .resting => v.book.cancelOrder build r.engineId >>= fun book =>
              pure (v.cancelled conn cid r book) := by
  unfold Venue.handleCancel
  cases m.clientOrderId with
  | none => rfl
  | some cid =>
    simp only [Tables.record]
    cases hc : v.tables.byConn.lookup conn with
    | none => rfl
    | some records =>
      simp only [Option.bind_some]
      cases hr : records.lookup cid with
      | none => rfl
      | some r =>
        unfold Venue.cancelled
        rw [hc]
        rfl

theorem Renamed.cancelled (h : v.Renamed ρ v') (c : ConnId) (cid : Bytes) (r : ClientRecord)
    {b b' : OrderBook cap} (hbooks : ∃ π a a', b.Rep a ∧ b'.Rep a' ∧ a.WF ∧ a'.WF ∧
      PriorityBook.Relocated π a a') :
    (v.cancelled c cid r b).Renamed ρ (v'.cancelled c (ρ.name c cid) r b') := by
  refine ⟨h.soft, h.clock, ⟨h.tables.lastTrade, h.tables.lastTicks, fun id => ?_,
    fun c' cid' => ?_, ?_⟩, hbooks⟩
  · rw [cancelled_live, cancelled_live, h.tables.live]
    split <;> rfl
  · rw [cancelled_record, cancelled_record, h.tables.record]
    simp only [ρ.name_iff]
  · have hsent : (v.tables.send c (.cancelAck cid r.exchangeId)).Renamed ρ
        (v'.tables.send c (.cancelAck (ρ.name c cid) r.exchangeId)) :=
      h.tables.send c fun hc => by rw [ρ.fixed c hc]
    rw [cancelled_sent, cancelled_sent]
    exact hsent.sent

theorem Renamed.handleCancel (h : v.Renamed ρ v') (c : ConnId) (m : InboundMessage) :
    Sim (Renamed ρ) (v.handleCancel build c m)
      (v'.handleCancel build c (m.rename (ρ.name c))) := by
  have hsend : ∀ x x', (seen c = true → x' = x) →
      Sim (Renamed ρ) (ε := Fault) (.ok (v.send c x)) (.ok (v'.send c x')) :=
    fun x x' hx => h.send c hx
  have hreject : ∀ cid reason, seen c = true →
      Outbound.cancelReject (ρ.name c cid) reason = .cancelReject cid reason :=
    fun cid reason hc => by rw [ρ.fixed c hc]
  rw [handleCancel_eq, handleCancel_eq]
  simp only [InboundMessage.rename]
  cases m.clientOrderId with
  | none => exact hsend _ _ fun _ => rfl
  | some cid =>
    simp only [Option.map_some, h.tables.record]
    cases hr : v.tables.record c cid with
    | none => exact hsend _ _ (hreject cid _)
    | some r =>
      cases hst : r.state with
      | filled =>
        simp only [hst]
        exact hsend _ _ (hreject cid _)
      | cancelled =>
        simp only [hst]
        exact hsend _ _ (hreject cid _)
      | resting =>
        simp only [hst]
        obtain ⟨π, a, a', hrep, hrep', hwf, hwf', hmoved⟩ := h.books
        obtain ⟨b, hb, hab⟩ := cancelOrder_sim build hrep hwf r.engineId
        obtain ⟨b', hb', hab'⟩ := cancelOrder_sim build hrep' hwf' r.engineId
        rw [hb, hb']
        exact h.cancelled c cid r ⟨π, _, _, hab, hab', hwf.cancel _, hwf'.cancel _,
          hmoved.cancel _⟩

theorem owned_nodup (v : Venue cap) (c : ConnId) : (v.owned c).Nodup :=
  List.Nodup.sublist (List.filter_sublist.map Sigma.fst) v.tables.byEngineId.nodupKeys

/-- A connection owns the same orders under every renaming. -/
theorem Renamed.owned (h : v.Renamed ρ v') (c : ConnId) : (v.owned c).Perm (v'.owned c) := by
  refine (List.perm_ext_iff_of_nodup (v.owned_nodup c) (v'.owned_nodup c)).mpr fun id => ?_
  rw [mem_owned, mem_owned, h.tables.live]
  cases v.tables.live id with
  | none => simp
  | some lo => simp [LiveOrder.rename]

theorem Renamed.dropIn (h : v.Renamed ρ v') (c : ConnId) {ids ids' : List UInt64}
    (hids : ids.Perm ids') :
    Sim (Renamed ρ) (v.dropIn build c ids) (v'.dropIn build c ids') := by
  obtain ⟨π, a, a', hrep, hrep', hwf, hwf', hmoved⟩ := h.books
  obtain ⟨w, hw, hb, hl, hr, hs, hlast, hclock, hsoft⟩ := dropIn_spec build c ids hrep hwf
  obtain ⟨w', hw', hb', hl', hr', hs', hlast', hclock', hsoft'⟩ :=
    dropIn_spec build c ids' hrep' hwf'
  rw [hw, hw']
  refine ⟨by rw [hsoft, hsoft', h.soft], by rw [hclock, hclock', h.clock],
    ⟨by rw [hlast.1, hlast'.1, h.tables.lastTrade], by rw [hlast.2, hlast'.2, h.tables.lastTicks],
      fun id => ?_, fun c' cid => ?_, by rw [hs, hs', h.tables.sent]⟩,
    π, _, _, hb, hb', hwf.cancels ids, hwf'.cancels ids', hmoved.cancels hids⟩
  · rw [hl, hl', h.tables.live]
    simp only [hids.mem_iff]
    split <;> rfl
  · rw [hr, hr', h.tables.record]

/-- A call on renamed venues, whatever the orders their tables come up in. -/
theorem Renamed.handleIn (h : v.Renamed ρ v') (o o' : Enumeration) {ev ev' : Event}
    (hev : Event.Renamed ρ ev ev') :
    Sim (Renamed ρ) (v.handleIn build o ev) (v'.handleIn build o' ev') := by
  cases hev with
  | drop =>
    exact h.dropIn _ (((o.perm _).trans (h.owned _)).trans (o'.perm _).symm)
  | @line c p p' parsed =>
    simp only [Venue.handleIn, Venue.handleLine, parsed]
    generalize parseInbound p = m
    have herr : (m.rename (ρ.name c)).parseError = m.parseError := rfl
    have htype : (m.rename (ρ.name c)).type = m.type := rfl
    have hreject : ∀ reason, seen c = true →
        Outbound.reject ((m.rename (ρ.name c)).clientOrderId.getD []) reason =
          .reject (m.clientOrderId.getD []) reason :=
      fun reason hc => by rw [m.rename_id (ρ.fixed c hc)]
    simp only [Venue.handleMessage, herr, htype]
    split
    · exact h.send c (hreject _)
    · cases m.type with
      | newOrder => exact h.handleNewOrder c m
      | cancel => exact h.handleCancel c m
      | heartbeat => exact h
      | unknown => exact h.send c (hreject _)
  | @same c p silent =>
    simp only [Venue.handleIn, Venue.handleLine, Venue.handleMessage]
    split
    · exact h.send c fun _ => rfl
    · next hread =>
      have hnone : (parseInbound p).parseError = none := by
        rw [← Option.not_isSome_iff_eq_none]
        exact fun hs => hread (Or.inl hs)
      cases ht : (parseInbound p).type with
      | newOrder => exact absurd ⟨hnone, Or.inl ht⟩ silent
      | cancel => exact absurd ⟨hnone, Or.inr ht⟩ silent
      | heartbeat => exact h
      | unknown => exact h.send c fun _ => rfl

/-- Whatever is called, the connections that keep their ids see the same. -/
theorem Renamed.watched (h : v.Renamed ρ v') {calls calls' : List (Event × Enumeration)}
    (hcalls : List.Forall₂ (fun x y => Event.Renamed ρ x.1 y.1) calls calls') :
    v'.watched build seen calls' = v.watched build seen calls := by
  induction hcalls generalizing v v' with
  | nil => rfl
  | @cons x y calls calls' hev hcalls ih =>
    obtain ⟨ev, o⟩ := x
    obtain ⟨ev', o'⟩ := y
    have hsim :
        Sim (Renamed ρ) (v.cleared.handleIn build o ev) (v'.cleared.handleIn build o' ev') :=
      h.cleared.handleIn o o' hev
    rw [Venue.watched, Venue.watched]
    cases hv : v.cleared.handleIn build o ev with
    | error f =>
      rw [hsim.of_error_left hv]
      rfl
    | ok w =>
      obtain ⟨w', hv', hw⟩ := hsim.of_ok_left hv
      simp only [hv', ok_bind, ih hw, hw.tables.sent, hw.top]

end Calls
end Venue
end MarketMakerOps.Exchange
