import MarketMakerOps.Exchange.Answers
import MarketMakerOps.Exchange.Budget
import MarketMakerOps.Exchange.PrivateNames
import MarketMakerOps.Exchange.Reading
import MarketMakerOps.Exchange.Touch
import MarketMakerOps.Ops.Reconciliation

/-!
The noise trader (`flow_generator/noise_trader.py`), the venue and the other clients as parties over
FIFO channels.

The trader fires at the price of the other side that it read last. The venue may take the order, or
another client act, long after that price is gone.

* `Fire`, `Trader`: an order it sends, and the state of `run`;
* `Trader.receive`: `_dispatch`, `_mark_live` and `_update_top`;
* `World`, `Step`, `Reachable`: any party moves, any channel delivers;
* `Aimed`: every price it holds or has fired at was published;
* `noise_trader_flow`: its orders go through, unless the venue is full or they meet its own.
-/

namespace MarketMakerOps.Ops.NoiseTrader

open Decimal Engine Exchange Fallible

variable {cap softCap : Nat} {build : Build} {c : Client}

/-! ## The trader -/

/-- An order it fires. -/
structure Fire where
  id : List Char
  side : OrderSide
  cents : ℤ
  qty : Nat

def Fire.payload (f : Fire) (t : UtcTime) : Bytes :=
  jsonDumps (newOrderDict f.id f.side (priceNumeral f.cents) f.qty t)

/-- The `n`-th call of `next_id`. -/
def nextId (c : Client) (n : Nat) : List Char := makeClientOrderId "nt".toList c.runId c.pid n

/-- `msg.get(key)`; null is `None` as well. -/
def get (msg : List Json.Member) (key : String) : Option Json.Value :=
  match Maker.field msg key with
  | some .null => none
  | v => v

/-- `live` and `top` of `run`; `seq` counts the ids drawn. -/
structure Trader where
  live : Bool
  bestBid : Option Json.Value
  bestAsk : Option Json.Value
  seq : Nat

namespace Trader

def start : Trader := ⟨false, none, none, 0⟩

def markLive (T : Trader) : Trader := { T with live := true }

def updateTop (T : Trader) (msg : List Json.Member) : Trader :=
  { T with
    live := true
    bestBid := get msg "best_bid"
    bestAsk := get msg "best_ask" }

/-- `_dispatch` of a payload; `none` is an exception. -/
def receive (T : Trader) (payload : Bytes) : Option Trader := do
  let msg ← jsonLoads payload
  match Maker.field msg "type" with
  | some (.str kind) =>
    if kind = ascii "HEARTBEAT" then some T.markLive
    else if kind = ascii "MARKET_DATA" then some (T.updateTop msg)
    else some T
  | _ => some T

/-- The price it would fire at. -/
def price (T : Trader) : OrderSide → Option Json.Value
  | .buy => T.bestAsk
  | .sell => T.bestBid

end Trader

/-! ## The world -/

/-- `fired` keeps every order sent, `published` every top of the
book the venue has set out to it. -/
structure World (cap : Nat) where
  trader : Trader
  fired : List (Fire × UtcTime)
  toVenue : List (Fire × UtcTime)
  session : Session cap
  published : List Venue.Top
  toTrader : List Parcel

/-- The venue has made a call; its messages to the trader set out. -/
def World.called (W : World cap) (s : Session cap) (ps : List (Outbound × UtcTime)) : World cap :=
  { W with session := s, toTrader := W.toTrader ++ ps.map fun p => .reply p.1 p.2 }

/-- The trader draws an id and sends an order. -/
def World.send (W : World cap) (c : Client) (side : OrderSide) (cents : ℤ) (qty : Nat)
    (t : UtcTime) : World cap :=
  let f : Fire := ⟨nextId c (W.trader.seq + 1), side, cents, qty⟩
  { W with
    trader := { W.trader with seq := W.trader.seq + 1 }
    fired := W.fired ++ [(f, t)]
    toVenue := W.toVenue ++ [(f, t)] }

/-- Where there is no price `fire` does not apply: the attempt is skipped. -/
inductive Step (build : Build) (c : Client) : World cap → World cap → Prop
  | fire {W : World cap} (side : OrderSide) (cents : ℤ) (qty : Nat) (t : UtcTime)
      (live : W.trader.live = true) (range : 1 ≤ qty ∧ qty ≤ 5)
      (price : W.trader.price side = some (.num ((cents : ℚ) / 100))) :
      Step build c W (W.send c side cents qty t)
  | take {W : World cap} {f : Fire} {t : UtcTime} {rest : List (Fire × UtcTime)} {s : Session cap}
      (ps : List (Outbound × UtcTime)) (front : W.toVenue = (f, t) :: rest)
      (call : W.session.step build (.line c.conn (f.payload t)) = .ok s)
      (replies : s.sentTo c.conn = W.session.sentTo c.conn ++ ps.map Prod.fst) :
      Step build c W ({ W with toVenue := rest }.called s ps)
  | others {W : World cap} {ev : Event} {s : Session cap} (ps : List (Outbound × UtcTime))
      (byOthers : ByOthers c.conn ev) (call : W.session.step build ev = .ok s)
      (replies : s.sentTo c.conn = W.session.sentTo c.conn ++ ps.map Prod.fst) :
      Step build c W (W.called s ps)
  | heartbeat {W : World cap} (seq : UInt64) (t : UtcTime) :
      Step build c W { W with toTrader := W.toTrader ++ [.heartbeat seq t] }
  | publish {W : World cap} (t : UtcTime) :
      Step build c W { W with
        published := W.published ++ [W.session.venue.currentTop]
        toTrader := W.toTrader ++ [.marketData W.session.venue.currentTop t] }
  | deliver {W : World cap} {p : Parcel} {rest : List Parcel} {T : Trader}
      (front : W.toTrader = p :: rest) (handled : W.trader.receive p.payload = some T) :
      Step build c W { W with trader := T, toTrader := rest }

def World.start (v : Venue cap) : World cap := ⟨.start, [], [], .start v, [], []⟩

/-- Reached from a new venue by any interleaving. -/
def Reachable (build : Build) (softCap : Nat) (c : Client) (W : World cap) : Prop :=
  ∃ v, Venue.new cap softCap = .ok v ∧ Relation.ReflTransGen (Step build c) (World.start v) W

/-! ## What the trader reads -/

/-- A price as `json.loads` returns it. -/
def shown (ticks : UInt32) : Json.Value := .num ((ticks.toNat : ℚ) / 100)

/-- What a message does to the trader. -/
def Trader.read (T : Trader) : Parcel → Trader
  | .reply _ _ => T
  | .heartbeat _ _ => T.markLive
  | .marketData top _ =>
    { T with
      live := true
      bestBid := (top.opposite .sell).map shown
      bestAsk := (top.opposite .buy).map shown }

section Reading

variable {T : Trader} {payload : Bytes} {ms : List Json.Member}

theorem get_of_mem (hnd : (ms.map Prod.fst).Nodup) (key : String) (has : Bool) (ticks : UInt32)
    (h : (ascii key, priceValue has ticks) ∈ ms) :
    get ms key = if has then some (shown ticks) else none := by
  rw [get, field_of_mem hnd key h]
  cases has <;> rfl

theorem receive_of_type (hreads : Reads payload ms) (kind : String)
    (htype : (ascii "type", .str (ascii kind)) ∈ ms) : T.receive payload =
      if Utf8.isUtf8 payload then
        if ascii kind = ascii "HEARTBEAT" then some T.markLive
        else if ascii kind = ascii "MARKET_DATA" then some (T.updateTop ms)
        else some T
      else none := by
  obtain ⟨hparse, hnd⟩ := hreads
  rw [Trader.receive, jsonLoads, hparse]
  split
  · simp only [Option.bind_eq_bind, Option.bind_some, field_of_mem hnd "type" htype]
  · rfl

/-- Replies have other types than the feed. -/
theorem kind_of_reply (m : Outbound) (ts : Bytes) : ∃ kind : String,
    (ascii "type", .str (ascii kind)) ∈ m.members ts ∧ ascii kind ≠ ascii "HEARTBEAT" ∧
      ascii kind ≠ ascii "MARKET_DATA" := by
  cases m with
  | ack => exact ⟨"ACK", List.mem_cons_self, by decide +kernel, by decide +kernel⟩
  | reject => exact ⟨"REJECT", List.mem_cons_self, by decide +kernel, by decide +kernel⟩
  | cancelAck => exact ⟨"CANCEL_ACK", List.mem_cons_self, by decide +kernel, by decide +kernel⟩
  | cancelReject =>
    exact ⟨"CANCEL_REJECT", List.mem_cons_self, by decide +kernel, by decide +kernel⟩
  | fill => exact ⟨"FILL", List.mem_cons_self, by decide +kernel, by decide +kernel⟩

/-- A message of the venue raises no exception, if it is UTF-8. -/
theorem receive_parcel (T : Trader) (p : Parcel) :
    T.receive p.payload = if Utf8.isUtf8 p.payload then some (T.read p) else none := by
  cases p with
  | reply m t =>
    have hreads : Reads (Parcel.reply m t).payload (m.members (isoTimestamp t)) :=
      (Payload.reply m).reads _
    obtain ⟨kind, htype, hbeat, hdata⟩ := kind_of_reply m (isoTimestamp t)
    rw [receive_of_type hreads kind htype, if_neg hbeat, if_neg hdata]
    rfl
  | heartbeat seq t =>
    have hreads : Reads (Parcel.heartbeat seq t).payload _ :=
      (Payload.heartbeat seq).reads (isoTimestamp t)
    rw [receive_of_type hreads "HEARTBEAT" List.mem_cons_self, if_pos rfl]
    rfl
  | marketData top t =>
    have hreads : Reads (Parcel.marketData top t).payload _ :=
      (Payload.marketData top).reads (isoTimestamp t)
    have hbid := get_of_mem hreads.2 "best_bid" top.hasBid top.bidTicks (by simp [Payload.members])
    have hask := get_of_mem hreads.2 "best_ask" top.hasAsk top.askTicks (by simp [Payload.members])
    have hkind : ¬ascii "MARKET_DATA" = ascii "HEARTBEAT" := by decide +kernel
    rw [receive_of_type hreads "MARKET_DATA" List.mem_cons_self, if_neg hkind, if_pos rfl,
      Trader.updateTop, hbid, hask]
    simp only [Trader.read, Venue.Top.opposite, apply_ite (Option.map shown), Option.map_some,
      Option.map_none]

end Reading

/-! ## Prices -/

/-- A price that was the venue's best of the other side when a top was published. -/
def World.Published (W : World cap) (side : OrderSide) (ticks : UInt32) : Prop :=
  ∃ top ∈ W.published, top.opposite side = some ticks

/-- Every price the trader holds, or has fired at, was published;
what is under way to it was sent. -/
structure Aimed (c : Client) (W : World cap) : Prop where
  drawn : W.trader.seq = W.fired.length
  numbered : ∀ k f, W.fired[k]? = some f → f.1.id = nextId c (k + 1)
  sized : ∀ f ∈ W.fired, 1 ≤ f.1.qty ∧ f.1.qty ≤ 5
  fired : ∀ f ∈ W.fired, ∃ ticks, W.Published f.1.side ticks ∧ (ticks.toNat : ℤ) = f.1.cents
  held : ∀ side v, W.trader.price side = some v → ∃ ticks, W.Published side ticks ∧ v = shown ticks
  coming : ∀ top t, .marketData top t ∈ W.toTrader → top ∈ W.published
  told : ∀ m t, .reply m t ∈ W.toTrader → m ∈ W.session.sentTo c.conn

section Prices

variable {W W' : World cap}

/-- The venue's replies are no news of the market. -/
theorem Aimed.called (h : Aimed c W) {toVenue : List (Fire × UtcTime)} {s : Session cap}
    {ps : List (Outbound × UtcTime)}
    (replies : s.sentTo c.conn = W.session.sentTo c.conn ++ ps.map Prod.fst) :
    Aimed c ({ W with toVenue := toVenue }.called s ps) := by
  refine ⟨h.drawn, h.numbered, h.sized, h.fired, h.held, fun top t hp => ?_, fun m t hp => ?_⟩
  · rcases List.mem_append.mp hp with hp | hp
    · exact h.coming top t hp
    · obtain ⟨x, -, hx⟩ := List.mem_map.mp hp
      cases hx
  · show m ∈ s.sentTo c.conn
    rw [replies]
    rcases List.mem_append.mp hp with hp | hp
    · exact List.mem_append_left _ (h.told m t hp)
    · obtain ⟨x, hx, heq⟩ := List.mem_map.mp hp
      cases heq
      exact List.mem_append_right _ (List.mem_map_of_mem hx)

/-- The trader fires at a price it holds. -/
theorem Aimed.fire (h : Aimed c W) {side : OrderSide} {cents : ℤ} {qty : Nat} (t : UtcTime)
    (range : 1 ≤ qty ∧ qty ≤ 5) (price : W.trader.price side = some (.num ((cents : ℚ) / 100))) :
    Aimed c (W.send c side cents qty t) := by
  refine ⟨?_, fun k f hf => ?_, ?_, ?_, h.held, h.coming, h.told⟩
  · show W.trader.seq + 1 = (W.fired ++ [_]).length
    rw [h.drawn, List.length_append, List.length_singleton]
  · have hf : (W.fired ++ [(⟨nextId c (W.trader.seq + 1), side, cents, qty⟩, t)])[k]? = some f := hf
    rw [List.getElem?_append] at hf
    split at hf
    · exact h.numbered k f hf
    · next hk =>
      obtain ⟨hlt, heq⟩ := List.getElem?_eq_some_iff.mp hf
      rw [List.length_singleton] at hlt
      have hlast : k = W.trader.seq := by
        have hdrawn := h.drawn
        omega
      rw [List.getElem_singleton] at heq
      rw [← heq, hlast]
  · refine List.forall_mem_append.mpr ⟨h.sized, fun f hf => ?_⟩
    rw [List.mem_singleton.mp hf]; exact range
  · refine List.forall_mem_append.mpr ⟨h.fired, fun f hf => ?_⟩
    obtain ⟨ticks, hpub, hv⟩ := h.held side _ price
    rw [List.mem_singleton.mp hf]
    refine ⟨ticks, hpub, ?_⟩
    -- the price held is that of a whole number of ticks
    have hq : (cents : ℚ) / 100 = (ticks.toNat : ℚ) / 100 := Json.Value.num.inj hv
    have hcents := (div_left_inj' (by norm_num)).mp hq
    exact_mod_cast hcents.symm

/-- What is read has been published. -/
theorem Aimed.deliver (h : Aimed c W) {p : Parcel} {rest : List Parcel} {T : Trader}
    (front : W.toTrader = p :: rest) (handled : W.trader.receive p.payload = some T) :
    Aimed c { W with trader := T, toTrader := rest } := by
  rw [receive_parcel] at handled
  obtain ⟨-, handled⟩ := Option.ite_none_right_eq_some.mp handled
  cases handled
  have hrest : ∀ top t, .marketData top t ∈ rest → top ∈ W.published := fun top t hp =>
    h.coming top t (front ▸ List.mem_cons_of_mem _ hp)
  have htold : ∀ m t, .reply m t ∈ rest → m ∈ W.session.sentTo c.conn := fun m t hp =>
    h.told m t (front ▸ List.mem_cons_of_mem _ hp)
  cases p with
  | reply m t => exact ⟨h.drawn, h.numbered, h.sized, h.fired, h.held, hrest, htold⟩
  | heartbeat seq t =>
    refine ⟨h.drawn, h.numbered, h.sized, h.fired, fun side v hv => ?_, hrest, htold⟩
    cases side with
    | buy => exact h.held .buy v hv
    | sell => exact h.held .sell v hv
  | marketData top t =>
    have htop : top ∈ W.published := h.coming top t (front ▸ List.mem_cons_self)
    refine ⟨h.drawn, h.numbered, h.sized, h.fired, fun side v hv => ?_, hrest, htold⟩
    have hv : (top.opposite side).map shown = some v := by
      cases side with
      | buy => exact hv
      | sell => exact hv
    obtain ⟨ticks, hticks, hshown⟩ := Option.map_eq_some_iff.mp hv
    exact ⟨ticks, ⟨top, htop, hticks⟩, hshown.symm⟩

theorem Aimed.step (h : Aimed c W) (hstep : Step build c W W') : Aimed c W' := by
  cases hstep with
  | fire side cents qty t live range price => exact h.fire t range price
  | take ps front call replies => exact h.called replies
  | others ps byOthers call replies => exact h.called replies
  | heartbeat seq t =>
    refine ⟨h.drawn, h.numbered, h.sized, h.fired, h.held, fun top t' hp => ?_, fun m t' hp => ?_⟩
    · rcases List.mem_append.mp hp with hp | hp
      · exact h.coming top t' hp
      · cases List.mem_singleton.mp hp
    · rcases List.mem_append.mp hp with hp | hp
      · exact h.told m t' hp
      · cases List.mem_singleton.mp hp
  | publish t =>
    have hmono : ∀ {side ticks}, W.Published side ticks →
        ∃ top ∈ W.published ++ [W.session.venue.currentTop], top.opposite side = some ticks := by
      rintro side ticks ⟨top, htop, hticks⟩
      exact ⟨top, List.mem_append_left _ htop, hticks⟩
    refine ⟨h.drawn, h.numbered, h.sized, fun f hf => ?_, fun side v hv => ?_, fun top t' hp => ?_,
      fun m t' hp => ?_⟩
    · obtain ⟨ticks, hpub, hcents⟩ := h.fired f hf
      exact ⟨ticks, hmono hpub, hcents⟩
    · obtain ⟨ticks, hpub, hshown⟩ := h.held side v hv
      exact ⟨ticks, hmono hpub, hshown⟩
    · rcases List.mem_append.mp hp with hp | hp
      · exact List.mem_append_left _ (h.coming top t' hp)
      · cases List.mem_singleton.mp hp
        exact List.mem_append_right _ (List.mem_singleton_self _)
    · rcases List.mem_append.mp hp with hp | hp
      · exact h.told m t' hp
      · cases List.mem_singleton.mp hp
  | deliver front handled => exact h.deliver front handled

theorem Aimed.start (v : Venue cap) : Aimed c (World.start v) := by
  refine ⟨rfl, fun k f hf => ?_, fun f hf => ?_, fun f hf => ?_, fun side v hv => ?_,
    fun top t hp => ?_, fun m t hp => ?_⟩
  · cases hf
  · cases hf
  · cases hf
  · cases side <;> cases hv
  · cases hp
  · cases hp

end Prices

/-! ## Orders at the venue -/

section Orders

variable {f : Fire} {t : UtcTime} {v v' : Venue cap}

/-- The venue reads what the trader meant. -/
theorem isNewOrder_fire {n : Nat} (hid : f.id = nextId c n)
    (hrun : ∀ ch ∈ c.runId, isLegible ch = true) (hqty : 1 ≤ f.qty ∧ f.qty ≤ 5) {ticks : UInt32}
    (hticks : (ticks.toNat : ℤ) = f.cents) :
    IsNewOrder (f.payload t) (utf8 f.id) f.side ticks (UInt32.ofNat f.qty) ∧
      UInt32.ofNat f.qty ≠ 0 := by
  have hhead := allLegible_iff.mp (show allLegible "nt".toList = true by decide +kernel)
  have hleg : allLegible f.id = true := by
    rw [hid]
    exact allLegible_iff.mpr ((isLegible_clientOrderId hhead c.runId c.pid n).mpr hrun)
  have hprice : ticks? f.cents = some ticks := by
    rw [← hticks, ticks?, if_neg (Int.not_lt.mpr (Int.natCast_nonneg _)), Int.toNat_natCast,
      toUint32?_toNat]
  have hsize : toUint32? f.qty = some (UInt32.ofNat f.qty) := by
    refine if_pos ?_
    unfold uint32Max
    omega
  have hparse : parseInbound (f.payload t) = ⟨.newOrder, some (utf8 f.id), some SYMBOL.bytes,
      some f.side, some ticks, some (UInt32.ofNat f.qty), none⟩ := by
    rw [Fire.payload, parseInbound_newOrderDict, if_pos hleg, parseDecimalToTicks_price, hprice,
      parseUint32_int, hsize]
  refine ⟨by constructor <;> rw [hparse]; rfl, fun hzero => ?_⟩
  have hnat := congrArg UInt32.toNat hzero
  rw [UInt32.toNat_ofNat_of_lt' (show f.qty < 2 ^ 32 by omega)] at hnat
  have hzero : f.qty = 0 := hnat
  omega

end Orders

/-- What the venue may answer an order of the trader. -/
inductive Reply (f : Fire) : Outbound → Prop
  | ack (e : Bytes) : Reply f (.ack (utf8 f.id) e)
  | full : Reply f (.reject (utf8 f.id) .venueFull)
  | selfMatch : Reply f (.reject (utf8 f.id) .selfMatch)

/-- The orders taken are those not under way; each has its answer, in their order. -/
structure Taken (build : Build) (softCap : Nat) (c : Client) (W : World cap)
    (taken : List (Fire × UtcTime)) : Prop where
  run : ∃ events, session build cap softCap events = .ok W.session
  split : W.fired = taken ++ W.toVenue
  lines : W.session.linesOf c.conn = taken.map fun f => f.1.payload f.2
  answers : List.Forall₂ (fun f m => Reply f.1 m) taken (W.session.answersTo c.conn)
  recorded : ∀ cid r, W.session.venue.tables.record c.conn cid = some r →
    ∃ f ∈ taken, cid = utf8 f.1.id

section Runs

variable {W W' : World cap} {taken : List (Fire × UtcTime)}

/-- The next order bears a new id. -/
theorem Taken.fresh (h : Taken build softCap c W taken) (haim : Aimed c W) {f : Fire} {t : UtcTime}
    {rest : List (Fire × UtcTime)} (front : W.toVenue = (f, t) :: rest) :
    W.session.venue.tables.record c.conn (utf8 f.id) = none := by
  rw [← Option.not_isSome_iff_eq_none]
  intro hsome
  obtain ⟨r, hr⟩ := Option.isSome_iff_exists.mp hsome
  obtain ⟨g, hg, hid⟩ := h.recorded _ r hr
  obtain ⟨k, hk, hget⟩ := List.mem_iff_getElem.mp hg
  have hfired : W.fired = taken ++ (f, t) :: rest := by rw [h.split, front]
  have hgk : W.fired[k]? = some g := by
    rw [hfired, List.getElem?_append_left hk, List.getElem?_eq_getElem hk, hget]
  have hfk : W.fired[taken.length]? = some (f, t) := by
    rw [hfired, List.getElem?_append_right le_rfl, Nat.sub_self]
    rfl
  have hnum := haim.numbered _ _ hfk
  rw [show f.id = nextId c (taken.length + 1) from hnum, haim.numbered _ _ hgk] at hid
  have heq := makeClientOrderId_inj hid
  omega

theorem Taken.mem_fired (h : Taken build softCap c W taken) {f : Fire} {t : UtcTime}
    {rest : List (Fire × UtcTime)} (front : W.toVenue = (f, t) :: rest) : (f, t) ∈ W.fired := by
  rw [h.split, front]
  exact List.mem_append_right _ List.mem_cons_self

/-- The next order is in good form. -/
theorem Taken.isNewOrder (h : Taken build softCap c W taken) (haim : Aimed c W)
    (hrun : ∀ ch ∈ c.runId, isLegible ch = true) {f : Fire} {t : UtcTime}
    {rest : List (Fire × UtcTime)} (front : W.toVenue = (f, t) :: rest) {ticks : UInt32}
    (hticks : (ticks.toNat : ℤ) = f.cents) :
    IsNewOrder (f.payload t) (utf8 f.id) f.side ticks (UInt32.ofNat f.qty) ∧
      UInt32.ofNat f.qty ≠ 0 := by
  have hmem := h.mem_fired front
  obtain ⟨k, hk⟩ := List.mem_iff_getElem?.mp hmem
  exact isNewOrder_fire (haim.numbered k _ hk) hrun (haim.sized _ hmem) hticks

/-- The venue takes an order. -/
theorem Taken.take (h : Taken build softCap c W taken) (haim : Aimed c W)
    (hrun : ∀ ch ∈ c.runId, isLegible ch = true) {f : Fire} {t : UtcTime}
    {rest : List (Fire × UtcTime)} {s : Session cap} (ps : List (Outbound × UtcTime))
    (front : W.toVenue = (f, t) :: rest)
    (call : W.session.step build (.line c.conn (f.payload t)) = .ok s) :
    Taken build softCap c ({ W with toVenue := rest }.called s ps) (taken ++ [(f, t)]) := by
  obtain ⟨events, hevents⟩ := h.run
  obtain ⟨hsound, -⟩ := session_size hevents
  obtain ⟨ticks, -, hticks⟩ := haim.fired _ (h.mem_fired front)
  obtain ⟨hnew, hpos⟩ := h.isNewOrder haim hrun front hticks
  obtain ⟨v', hv', rfl⟩ := Session.step_eq_ok.mp call
  have hanswer : ∃ m, Reply f m ∧ answersIn c.conn v'.tables.sent = [m] := by
    rcases hnew.answers_of_fresh (v := W.session.venue.cleared) hpos (h.fresh haim front) hsound rfl
        hv' with
      ⟨fills, hmsgs, hfills⟩ | ⟨-, hmsgs⟩ | ⟨-, hmsgs⟩
    · exact ⟨_, .ack _, by rw [hmsgs, answersIn_cons rfl hfills, if_pos rfl]⟩
    · exact ⟨_, .full, by rw [hmsgs, answersIn_cons rfl fun f hf => (by cases hf), if_pos rfl]⟩
    · exact ⟨_, .selfMatch, by rw [hmsgs, answersIn_cons rfl fun f hf => (by cases hf), if_pos rfl]⟩
  obtain ⟨m, hm, hanswers⟩ := hanswer
  refine ⟨⟨_, session_snoc hevents call⟩, ?_, ?_, ?_, fun cid r hr => ?_⟩
  · show W.fired = (taken ++ [(f, t)]) ++ rest
    rw [h.split, front, List.append_assoc]
    rfl
  · show Session.linesOf ⟨_, v'⟩ c.conn = _
    rw [Session.linesOf_of_step call, h.lines, List.map_append, Event.lineOf, if_pos rfl]
    rfl
  · show List.Forall₂ _ _ (Session.answersTo ⟨_, v'⟩ c.conn)
    rw [Session.answersTo_of_step call, hanswers]
    exact List.rel_append h.answers (.cons hm .nil)
  · cases hold : W.session.venue.tables.record c.conn cid with
    | some r' =>
      obtain ⟨g, hg, hcid⟩ := h.recorded cid r' hold
      exact ⟨g, List.mem_append_left _ hg, hcid⟩
    | none =>
      obtain ⟨payload, side, p, q, hev, hmade⟩ := record_made (v := W.session.venue.cleared) hsound
        hv' hold hr
      rw [← (Event.line.inj hev).2] at hmade
      have hname := hmade.names
      rw [hnew.names] at hname
      exact ⟨(f, t), List.mem_append_right _ (List.mem_singleton_self _),
        (Option.some.inj hname).symm⟩

/-- Another client calls. -/
theorem Taken.others (h : Taken build softCap c W taken) {ev : Event} {s : Session cap}
    (ps : List (Outbound × UtcTime)) (byOthers : ByOthers c.conn ev)
    (call : W.session.step build ev = .ok s) : Taken build softCap c (W.called s ps) taken := by
  obtain ⟨events, hevents⟩ := h.run
  obtain ⟨hsound, -⟩ := session_size hevents
  obtain ⟨v', hv', rfl⟩ := Session.step_eq_ok.mp call
  have hnone : answersIn c.conn v'.tables.sent = [] :=
    answersIn_eq_nil (others_sent (v := W.session.venue.cleared) hsound rfl byOthers hv')
  have hline : ev.lineOf c.conn = none := by
    cases ev with
    | line conn payload => exact if_neg byOthers
    | drop conn => rfl
  refine ⟨⟨_, session_snoc hevents call⟩, h.split, ?_, ?_, fun cid r hr => ?_⟩
  · show Session.linesOf ⟨_, v'⟩ c.conn = _
    rw [Session.linesOf_of_step call, hline, Option.toList_none, List.append_nil]
    exact h.lines
  · show List.Forall₂ _ _ (Session.answersTo ⟨_, v'⟩ c.conn)
    rw [Session.answersTo_of_step call, hnone, List.append_nil]
    exact h.answers
  · cases hold : W.session.venue.tables.record c.conn cid with
    | some r' => exact h.recorded cid r' hold
    | none =>
      obtain ⟨payload, side, p, q, rfl, -⟩ := record_made (v := W.session.venue.cleared) hsound hv'
        hold hr
      exact absurd rfl byOthers

theorem Taken.step (h : Taken build softCap c W taken) (haim : Aimed c W)
    (hrun : ∀ ch ∈ c.runId, isLegible ch = true) (hstep : Step build c W W') :
    ∃ taken', Taken build softCap c W' taken' := by
  cases hstep with
  | fire side cents qty t live range price =>
    refine ⟨taken, h.run, ?_, h.lines, h.answers, h.recorded⟩
    show W.fired ++ _ = taken ++ (W.toVenue ++ _)
    rw [h.split, List.append_assoc]
  | take ps front call replies => exact ⟨_, h.take haim hrun ps front call⟩
  | others ps byOthers call replies => exact ⟨taken, h.others ps byOthers call⟩
  | heartbeat seq t => exact ⟨taken, h.run, h.split, h.lines, h.answers, h.recorded⟩
  | publish t => exact ⟨taken, h.run, h.split, h.lines, h.answers, h.recorded⟩
  | deliver front handled => exact ⟨taken, h.run, h.split, h.lines, h.answers, h.recorded⟩

theorem Taken.start {v : Venue cap} (hv : Venue.new cap softCap = .ok v) :
    Taken build softCap c (World.start v) [] := by
  refine ⟨⟨[], by rw [session, hv]; rfl⟩, rfl, rfl, .nil, fun cid r hr => ?_⟩
  have htables : v.tables = ⟨false, 0, ∅, ∅, []⟩ := by
    obtain ⟨b, -, hv⟩ := bind_eq_ok.mp hv
    cases hv
    rfl
  have hr : v.tables.record c.conn cid = some r := hr
  rw [htables] at hr
  cases hr

theorem Reachable.aimed (h : Reachable build softCap c W) : Aimed c W := by
  obtain ⟨v, hv, hsteps⟩ := h
  induction hsteps with
  | refl => exact .start v
  | tail _ hstep ih => exact ih.step hstep

theorem Reachable.exists_taken (h : Reachable build softCap c W)
    (hrun : ∀ ch ∈ c.runId, isLegible ch = true) : ∃ taken, Taken build softCap c W taken := by
  obtain ⟨v, hv, hsteps⟩ := h
  induction hsteps with
  | refl => exact ⟨[], .start hv⟩
  | @tail W W' hsteps hstep ih =>
    obtain ⟨taken, htaken⟩ := ih
    exact htaken.step (Reachable.aimed ⟨v, hv, hsteps⟩) hrun hstep

/-- What is under way to the trader is UTF-8: the venue names nothing to it but its own ids. -/
theorem Taken.isUtf8 (h : Taken build softCap c W taken) (haim : Aimed c W)
    (hrun : ∀ ch ∈ c.runId, isLegible ch = true) :
    ∀ p ∈ W.toTrader, Utf8.isUtf8 p.payload = true := by
  intro p hp
  cases p with
  | heartbeat seq t => exact isUtf8_encodeHeartbeat seq t
  | marketData top t => exact isUtf8_mdPayload top t
  | reply m t =>
    obtain ⟨events, hevents⟩ := h.run
    obtain ⟨⟨payload, hpayload, hname⟩, hissued⟩ :=
      Session.names_request hevents (haim.told m t hp)
    rw [h.lines] at hpayload
    obtain ⟨f, hf, rfl⟩ := List.mem_map.mp hpayload
    have hfired : f ∈ W.fired := h.split ▸ List.mem_append_left _ hf
    obtain ⟨k, hk⟩ := List.mem_iff_getElem?.mp hfired
    obtain ⟨ticks, -, hticks⟩ := haim.fired f hfired
    obtain ⟨hnew, -⟩ := isNewOrder_fire (t := f.2) (haim.numbered k f hk) hrun (haim.sized f hfired)
      hticks
    have hid : ∀ ch ∈ f.1.id, isLegible ch = true := by
      rw [haim.numbered k f hk]
      exact (isLegible_clientOrderId (allLegible_iff.mp rfl) c.runId c.pid (k + 1)).mpr hrun
    have hcid : Utf8.isUtf8 m.clientOrderId = true := by
      rw [hname, hnew.names]
      exact isUtf8_utf8 hid
    exact Outbound.Named.isUtf8_encode ⟨hcid, hissued⟩ t

end Runs

/-! ## At the touch -/

section Touch

variable {W : World cap} {f : Fire} {t : UtcTime} {rest : List (Fire × UtcTime)} {s : Session cap}
  {ticks : UInt32}

/-- If the price the trader fired at is still the best when its order is taken, the order trades at
once and at that price only, for all that is open there or all of itself; unless the venue is full
or the trader would meet an order of its own. -/
theorem fire_at_the_touch (h : Reachable build softCap c W)
    (hrun : ∀ ch ∈ c.runId, isLegible ch = true) (front : W.toVenue = (f, t) :: rest)
    (call : W.session.step build (.line c.conn (f.payload t)) = .ok s) (hlt : s.accepted < 2 ^ 64)
    (touch : W.session.venue.currentTop.opposite f.side = some ticks)
    (price : (ticks.toNat : ℤ) = f.cents) :
    (∃ reason, (reason = .venueFull ∨ reason = .selfMatch) ∧ s.history = W.session.history ++
      [(.line c.conn (f.payload t), [(c.conn, .reject (utf8 f.id) reason)])]) ∨
    ∃ e fills, s.history = W.session.history ++
        [(.line c.conn (f.payload t), (c.conn, .ack (utf8 f.id) e) :: fills)] ∧
      filledQty e fills = min (W.session.venue.tables.reachable f.side ticks) f.qty ∧
      0 < filledQty e fills ∧
      ∀ m ∈ fills, ∃ e' cid n left, m.2 = .fill e' cid n ticks left := by
  have haim := h.aimed
  obtain ⟨taken, htaken⟩ := h.exists_taken hrun
  obtain ⟨events, hevents⟩ := htaken.run
  obtain ⟨hsound, -⟩ := session_size hevents
  obtain ⟨hpos, hle⟩ : 1 ≤ f.qty ∧ f.qty ≤ 5 := haim.sized _ (htaken.mem_fired front)
  obtain ⟨hnew, hne⟩ := htaken.isNewOrder haim hrun front price
  obtain ⟨v', hv', hs⟩ := Session.step_eq_ok.mp call
  have hhist : s.history = W.session.history ++ [(.line c.conn (f.payload t), v'.tables.sent)] := by
    rw [hs]
  rcases hnew.answers_of_fresh (v := W.session.venue.cleared) hne (htaken.fresh haim front) hsound
    rfl
      hv' with ⟨fills, hmsgs, -⟩ | ⟨-, hmsgs⟩ | ⟨-, hmsgs⟩
  · right
    rw [hmsgs] at hhist
    obtain ⟨M, hack⟩ := acknowledged hevents hnew call hlt hhist
    have hqty : (UInt32.ofNat f.qty).toNat = f.qty :=
      UInt32.toNat_ofNat_of_lt' (show f.qty < 2 ^ 32 by omega)
    rw [hqty] at hack
    obtain ⟨hfilled, hprices⟩ := hack.touch hpos touch
    exact ⟨_, fills, hhist, hack.filledQty, hfilled, hprices⟩
  · rw [hmsgs] at hhist
    exact Or.inl ⟨.venueFull, Or.inl rfl, hhist⟩
  · rw [hmsgs] at hhist
    exact Or.inl ⟨.selfMatch, Or.inr rfl, hhist⟩

end Touch

/-! ## A first fire -/

/-- A trader on connection 1. -/
def crowd : Client := ⟨1, "r".toList, 1⟩

/-- Ten offered at 100 ticks by somebody else. -/
def offer : Event := .line 2 (newOrderLine idA .sell 100 10 idA)

/-- Three are bought of them. -/
def firstFire : Fire := ⟨nextId crowd 1, .buy, 100, 3⟩

/-- The world when they are to be bought. -/
def firing (s : Session 4) : World 4 where
  trader := ⟨true, none, some (shown 100), 1⟩
  fired := [(firstFire, epoch)]
  toVenue := [(firstFire, epoch)]
  session := s
  published := [⟨false, 0, true, 100, false, 0⟩]
  toTrader := []

/-- The trader sees the offer and fires at it. -/
theorem first_fire : ∃ s s' : Session 4, Reachable .debug 3 crowd (firing s) ∧
    s.step .debug (.line 1 (firstFire.payload epoch)) = .ok s' ∧
    s.venue.currentTop = ⟨false, 0, true, 100, false, 0⟩ ∧
    s.venue.tables.reachable .buy 100 = 10 ∧ s.sentTo 1 = [] ∧ s'.accepted = 2 ∧
    s'.sentTo 1 = [.ack (utf8 firstFire.id) (exchangeId 2),
      .fill (exchangeId 2) (utf8 firstFire.id) 3 100 0] := by
  obtain ⟨v, hv, hp⟩ : ∃ v : Venue 4, Venue.new 4 3 = .ok v ∧
      ((Session.start v).step .debug offer).toOption.any (fun s =>
        decide (s.venue.currentTop = ⟨false, 0, true, 100, false, 0⟩ ∧
          s.venue.tables.reachable .buy 100 = 10 ∧ s.sentTo 1 = []) &&
        (s.step .debug (.line 1 (firstFire.payload epoch))).toOption.any fun s' =>
          decide (s'.accepted = 2 ∧ s'.sentTo 1 = [.ack (utf8 firstFire.id) (exchangeId 2),
            .fill (exchangeId 2) (utf8 firstFire.id) 3 100 0])) = true :=
    exists_ok (by decide +kernel)
  obtain ⟨s, hs, hp⟩ := exists_ok hp
  obtain ⟨hp, hp'⟩ := Bool.and_eq_true_iff.mp hp
  obtain ⟨htop, hreach, hsent⟩ := of_decide_eq_true hp
  obtain ⟨s', hs', hp'⟩ := exists_ok hp'
  obtain ⟨hacc, hsent'⟩ := of_decide_eq_true hp'
  refine ⟨s, s', ⟨v, hv, ?_⟩, hs', htop, hreach, hsent, hacc, hsent'⟩
  have hoffer : Step .debug crowd (World.start v) ⟨.start, [], [], s, [], []⟩ :=
    .others [] (show ByOthers 1 offer from fun h => absurd h (by decide)) hs hsent
  have hpublish : Step .debug crowd ⟨.start, [], [], s, [], []⟩
      ⟨.start, [], [], s, [s.venue.currentTop], [.marketData s.venue.currentTop epoch]⟩ :=
    .publish epoch
  rw [htop] at hpublish
  have hdeliver : Step .debug crowd
      ⟨.start, [], [], s, [⟨false, 0, true, 100, false, 0⟩],
        [.marketData ⟨false, 0, true, 100, false, 0⟩ epoch]⟩
      ⟨⟨true, none, some (shown 100), 0⟩, [], [], s, [⟨false, 0, true, 100, false, 0⟩], []⟩ :=
    .deliver rfl ((receive_parcel _ _).trans (if_pos (isUtf8_mdPayload _ epoch)))
  have hfire : Step .debug crowd
      ⟨⟨true, none, some (shown 100), 0⟩, [], [], s, [⟨false, 0, true, 100, false, 0⟩], []⟩
      (firing s) := .fire .buy 100 3 epoch rfl (by decide) rfl
  exact (((Relation.ReflTransGen.single hoffer).tail hpublish).tail hdeliver).tail hfire

theorem fire_at_the_touch_first_fire : ∃ (s' : Session 4) (e : Bytes) (fills : List Sent),
    s'.sentTo 1 = [.ack (utf8 firstFire.id) (exchangeId 2),
      .fill (exchangeId 2) (utf8 firstFire.id) 3 100 0] ∧
    filledQty e fills = 3 ∧ ∀ m ∈ fills, ∃ e' cid n left, m.2 = .fill e' cid n 100 left := by
  obtain ⟨s, s', hreach, hs', htop, hopen, hsent, hacc, hsent'⟩ := first_fire
  have htouch : (firing s).session.venue.currentTop.opposite firstFire.side = some 100 := by
    rw [firing, htop]
    rfl
  rcases
    fire_at_the_touch hreach (allLegible_iff.mp rfl) rfl hs' (by rw [hacc]; decide) htouch rfl with
    ⟨reason, -, hhist⟩ | ⟨e, fills, -, hfilled, -, hprices⟩
  · rw [Session.sentTo, Session.messages_append hhist, List.filter_append, List.map_append]
      at hsent'
    have hsent' : s.sentTo 1 ++ [.reject (utf8 firstFire.id) reason] = _ := hsent'
    rw [hsent] at hsent'
    cases (List.cons.inj hsent').1
  · rw [show (firing s).session.venue.tables.reachable firstFire.side 100 = 10 from hopen]
      at hfilled
    exact ⟨s', e, fills, hsent', hfilled, hprices⟩

end MarketMakerOps.Ops.NoiseTrader
