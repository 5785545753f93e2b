import MarketMakerOps.Exchange.Client
import MarketMakerOps.Exchange.ClientRequests
import MarketMakerOps.Exchange.Runs
import MarketMakerOps.Ops.PositionState
import MarketMakerOps.Ops.Quoting
import Mathlib.Logic.Relation

/-!
The market maker (`market_maker/main.py`), the venue and the other clients as parties
over FIFO channels.

`run` is cut at its `await`s: between two of them a fill may be handled, the venue may
take a request, another client may act. Messages of the venue reach the maker as the
payloads of their frames; that frames survive their byte stream is `Framing`.

* `Maker`: the state of `run` and of its position; `Pc` is where its tick stands;
* `Maker.receive`: `_dispatch` and `_on_fill`;
* `World`: the parties, the channels, and what the maker has read so far;
* `Step`, `Reachable`: any party moves, any channel delivers.
-/

namespace MarketMakerOps.Ops

open Decimal Engine Exchange

variable {cap : Nat}

/-! ## Requests -/

/-- The maker's connection and what its ids are made of. -/
structure Client where
  conn : ConnId
  runId : List Char
  pid : Nat

/-- The `n`-th call of `next_id`. -/
def Client.id (c : Client) (n : Nat) : List Char := makeClientOrderId "mm".toList c.runId c.pid n

def Price.numeral (p : Price) : Numeral := signedNumeral p.negative p.cents

inductive Request
  | newOrder (id : List Char) (side : OrderSide) (price : Price)
  | cancel (id : List Char)

/-- The payload of a request made at a time. -/
def Request.payload (t : UtcTime) : Request → Bytes
  | .newOrder id side price => jsonDumps (newOrderDict id side price.numeral QUOTE_SIZE t)
  | .cancel id => jsonDumps (cancelDict id t)

/-! ## The maker -/

structure Pair where
  bidId : List Char
  askId : List Char
  quote : Quote

/-- Asleep; cancelling what rests, `left` still to go; or about to send the ask. -/
inductive Pc
  | asleep
  | cancelling (quote : Quote) (left : List (List Char))
  | asking (pair : Pair)

/-- `seq` counts the ids drawn, `pairs` keeps every pair made; `orderSide` is keyed by the UTF-8
bytes of the ids. -/
structure Maker where
  pc : Pc
  seq : Nat
  resting : List (List Char)
  orderSide : AList fun _ : Bytes => Side
  position : PositionState
  pairs : List Pair

namespace Maker

def start : Maker := ⟨.asleep, 0, [], ∅, .zero, []⟩

/-- A tick begins: the quote is computed on the inventory of the moment. -/
def quoted (M : Maker) (fairValue : ℚ) : Maker :=
  { M with pc := .cancelling (computeQuote fairValue M.position.inventory SPREAD SKEW_K) M.resting }

def cancelled (M : Maker) (quote : Quote) (left : List (List Char)) : Maker :=
  { M with pc := .cancelling quote left }

/-- The entries of `order_side` that survive a tick: those of the resting pair. -/
def kept (M : Maker) : AList fun _ : Bytes => Side :=
  M.resting.foldl (fun d oid =>
    match M.orderSide.lookup (utf8 oid) with
    | none => d
    | some side => d.insert (utf8 oid) side) ∅

/-- The next pair of ids, with the prices of a quote. -/
def nextPair (M : Maker) (c : Client) (quote : Quote) : Pair :=
  ⟨c.id (M.seq + 1), c.id (M.seq + 2), quote⟩

/-- The cancels are sent: forget older pairs, draw two ids, and keep their sides. -/
def registered (M : Maker) (c : Client) (quote : Quote) : Maker :=
  let pair := M.nextPair c quote
  { M with
    pc := .asking pair
    seq := M.seq + 2
    orderSide := (M.kept.insert (utf8 pair.bidId) .buy).insert (utf8 pair.askId) .sell
    pairs := M.pairs ++ [pair] }

def asked (M : Maker) (pair : Pair) : Maker :=
  { M with pc := .asleep, resting := [pair.bidId, pair.askId] }

/-- `msg[key]`; the last of equal keys counts. -/
def field (msg : List Json.Member) (key : String) : Option Json.Value :=
  msg.reverse.lookup (ascii key)

/-- `_on_fill`; `none` is an exception. -/
def onFill (M : Maker) (msg : List Json.Member) : Option Maker := do
  let cid ← field msg "client_order_id"
  match cid with
  | .str cid =>
    match M.orderSide.lookup cid with
    | none => some M
    | some side =>
      match field msg "fill_qty", field msg "fill_price" with
      | some (.num qty), some (.num price) =>
        some { M with position := M.position.filled side qty price }
      | _, _ => none
  | _ => some M

/-- `_dispatch` of a payload: of the handlers only `_on_fill` changes the maker. -/
def receive (M : Maker) (payload : Bytes) : Option Maker := do
  let msg ← jsonLoads payload
  if field msg "type" = some (.str (ascii "FILL")) then M.onFill msg else some M

end Maker

/-! ## The world -/

inductive Parcel
  | reply (m : Outbound) (t : UtcTime)
  | heartbeat (seq : UInt64) (t : UtcTime)
  | marketData (top : Venue.Top) (t : UtcTime)

def Parcel.payload : Parcel → Bytes
  | .reply m t => m.encode (isoTimestamp t)
  | .heartbeat seq t => encodeHeartbeat seq (isoTimestamp t)
  | .marketData top t => encodeMarketData kSymbol top.hasBid top.bidTicks top.hasAsk top.askTicks
      top.hasLast top.lastTicks (isoTimestamp t)

def Parcel.reply? : Parcel → Option Outbound
  | .reply m _ => some m
  | _ => none

/-- `read` lists the replies the maker has read, each with the number
of pairs it had made by then. -/
structure World (cap : Nat) where
  maker : Maker
  toVenue : List (Request × UtcTime)
  session : Session cap
  toMaker : List Parcel
  read : List (Nat × Outbound)

def repliesTo (conn : ConnId) (s : Session cap) : List Outbound :=
  (s.messages.filter fun m => m.1 = conn).map Prod.snd

/-- A call on the venue that is none of the maker's. -/
def ByOthers (conn : ConnId) : Event → Prop
  | .line conn' _ => conn' ≠ conn
  | .drop conn' => conn' ≠ conn

/-- The venue has made a call; its messages to the maker set out, each at a time of its own. -/
def World.called (W : World cap) (s : Session cap) (ps : List (Outbound × UtcTime)) : World cap :=
  { W with session := s, toMaker := W.toMaker ++ ps.map fun p => .reply p.1 p.2 }

/-- The maker moves on and sends a request. -/
def World.sent (W : World cap) (M : Maker) (r : Request) (t : UtcTime) : World cap :=
  { W with maker := M, toVenue := W.toVenue ++ [(r, t)] }

inductive Step (build : Build) (c : Client) : World cap → World cap → Prop
  | quote {W : World cap} (fairValue : ℚ) (pc : W.maker.pc = .asleep) :
      Step build c W { W with maker := W.maker.quoted fairValue }
  | cancel {W : World cap} {quote : Quote} {oid : List Char} {left : List (List Char)}
      (t : UtcTime) (pc : W.maker.pc = .cancelling quote (oid :: left)) :
      Step build c W (W.sent (W.maker.cancelled quote left) (.cancel oid) t)
  | bid {W : World cap} {quote : Quote} (t : UtcTime) (pc : W.maker.pc = .cancelling quote []) :
      Step build c W (W.sent (W.maker.registered c quote)
        (.newOrder (W.maker.nextPair c quote).bidId .buy quote.bid) t)
  | ask {W : World cap} {pair : Pair} (t : UtcTime) (pc : W.maker.pc = .asking pair) :
      Step build c W (W.sent (W.maker.asked pair) (.newOrder pair.askId .sell pair.quote.ask) t)
  | take {W : World cap} {r : Request} {t : UtcTime} {rest : List (Request × UtcTime)}
      {s : Session cap} (ps : List (Outbound × UtcTime)) (front : W.toVenue = (r, t) :: rest)
      (call : W.session.step build (.line c.conn (r.payload t)) = .ok s)
      (replies : repliesTo c.conn s = repliesTo c.conn W.session ++ ps.map Prod.fst) :
      Step build c W ({ W with toVenue := rest }.called s ps)
  | others {W : World cap} {ev : Event} {s : Session cap} (ps : List (Outbound × UtcTime))
      (byOthers : ByOthers c.conn ev) (call : W.session.step build ev = .ok s)
      (replies : repliesTo c.conn s = repliesTo c.conn W.session ++ ps.map Prod.fst) :
      Step build c W (W.called s ps)
  | broadcast {W : World cap} (p : Parcel) (noReply : p.reply? = none) :
      Step build c W { W with toMaker := W.toMaker ++ [p] }
  | deliver {W : World cap} {p : Parcel} {rest : List Parcel} {M : Maker}
      (front : W.toMaker = p :: rest) (handled : W.maker.receive p.payload = some M) :
      Step build c W { W with
        maker := M
        toMaker := rest
        read := W.read ++ (p.reply?.map fun m => (W.maker.pairs.length, m)).toList }

def World.start (v : Venue cap) : World cap := ⟨.start, [], .start v, [], []⟩

/-- Reached from a new venue by any interleaving. -/
def Reachable (build : Build) (softCap : Nat) (c : Client) (W : World cap) : Prop :=
  ∃ v, Venue.new cap softCap = .ok v ∧ Relation.ReflTransGen (Step build c) (World.start v) W

end MarketMakerOps.Ops
