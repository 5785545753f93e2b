import MarketMakerOps.Ops.Quotes

/-!
When the maker's prices can be written on the wire. The skew is linear in the
inventory, which no limit bounds, while the venue takes cents of 32 bits without
a sign.

* `positionAfter`: the position some fills lead to;
* `WireValid`: both prices are read back by the venue, the bid below the ask;
* `quotes_valid_iff`: the fair values and inventories for which they are.
-/

namespace MarketMakerOps.Ops

open Decimal Engine Exchange Rounding

/-! ## Inventories -/

/-- Fills in order: the side, the quantity, the price. -/
def positionAfter (fills : List (Side × Nat × ℚ)) : PositionState :=
  fills.foldl (fun p f => p.filled f.1 f.2.1 f.2.2) .zero

/-- The maker buys its quote size, so many times. -/
def bought (n : Nat) (price : ℚ) : List (Side × Nat × ℚ) :=
  List.replicate n (.buy, QUOTE_SIZE, price)

theorem inventory_bought (n : Nat) (price : ℚ) :
    (positionAfter (bought n price)).inventory = (n * QUOTE_SIZE : Nat) := by
  have hfold : ∀ p : PositionState, ((bought n price).foldl
      (fun p f => p.filled f.1 f.2.1 f.2.2) p).inventory =
      p.inventory + (n * QUOTE_SIZE : Nat) := by
    induction n with
    | zero => intro p; simp [bought]
    | succ n ih =>
      intro p
      rw [bought, List.replicate_succ, List.foldl_cons, ← bought, ih]
      simp only [PositionState.filled]
      push_cast
      ring
  rw [positionAfter, hfold]
  simp [PositionState.zero]

/-! ## Prices on the wire -/

/-- Both prices, written in decimal, are prices to the venue, the bid below the ask; and no request
that carries one reaches the venue without a price. -/
structure WireValid (q : Quote) : Prop where
  ticks : ∃ bid ask, parseDecimalToTicks q.bid.numeral.bytes = some bid ∧
    parseDecimalToTicks q.ask.numeral.bytes = some ask ∧ bid < ask
  priced : ∀ id t, allLegible id = true →
    (parseInbound ((Request.newOrder id .buy q.bid).payload t)).priceTicks ≠ none ∧
      (parseInbound ((Request.newOrder id .sell q.ask).payload t)).priceTicks ≠ none

theorem Price.parse_numeral (p : Price) : parseDecimalToTicks p.numeral.bytes = p.ticks? :=
  parseDecimalToTicks_signed p.negative p.cents

theorem wireValid_iff {q : Quote} (h : q.bid.value < q.ask.value) :
    WireValid q ↔ q.bid.negative = false ∧ q.ask.value < 2 ^ 32 := by
  constructor
  · rintro ⟨⟨bid, ask, hbid, hask, -⟩, -⟩
    rw [Price.parse_numeral] at hbid hask
    have hlt := ask.toNat_lt
    obtain ⟨-, heq⟩ := Price.ticks?_eq_some.mp hask
    exact ⟨(Price.ticks?_eq_some.mp hbid).1, by omega⟩
  · rintro ⟨hbid, hask⟩
    have hnonneg : 0 ≤ q.bid.value := by
      rw [Price.value, hbid]
      exact Int.natCast_nonneg _
    have hticks : ∀ p : Price, p.negative = false → p.value < 2 ^ 32 →
        ∃ n : UInt32, p.ticks? = some n ∧ (n.toNat : ℤ) = p.value := by
      intro p hp hlt
      have hvalue : p.value = p.cents := by
        rw [Price.value, hp]
        rfl
      have hn : ((UInt32.ofNat p.cents).toNat : ℤ) = p.value := by
        rw [UInt32.toNat_ofNat_of_lt' (show p.cents < 2 ^ 32 by omega), hvalue]
      exact ⟨_, Price.ticks?_eq_some.mpr ⟨hp, hn⟩, hn⟩
    obtain ⟨b, hb, hbeq⟩ := hticks q.bid hbid (by omega)
    have haskSign : q.ask.negative = false := by
      by_contra hneg
      rw [Bool.not_eq_false] at hneg
      have hle : q.ask.value = -q.ask.cents := by rw [Price.value, hneg]; rfl
      omega
    obtain ⟨a, ha, haeq⟩ := hticks q.ask haskSign hask
    refine ⟨⟨b, a, ?_, ?_, ?_⟩, fun id t hid => ?_⟩
    · rw [Price.parse_numeral, hb]
    · rw [Price.parse_numeral, ha]
    · rw [UInt32.lt_iff_toNat_lt]
      omega
    · rw [parseInbound_newOrderRequest, parseInbound_newOrderRequest, if_pos hid, if_pos hid, hb,
        ha]
      exact ⟨Option.some_ne_none b, Option.some_ne_none a⟩

/-- The quotes are valid exactly while the reservation price, in cents, keeps the bid from being
negative, if only by its sign, and the ask from rounding to `2 ^ 32`. -/
theorem quotes_valid_iff (fairValue : ℚ) (fills : List (Side × Nat × ℚ)) :
    WireValid (computeQuote fairValue (positionAfter fills).inventory SPREAD SKEW_K) ↔
      2 ≤ 100 * fairValue - (positionAfter fills).inventory ∧
        100 * fairValue - (positionAfter fills).inventory < 2 ^ 32 - 5 / 2 := by
  generalize (positionAfter fills).inventory = inventory
  have hask := le_roundHalfEven_iff
    (x := 100 * (reservationPrice fairValue inventory SKEW_K + SPREAD / 2)) (k := 2 ^ 32)
      (by decide)
  rw [wireValid_iff (computeQuote_lt fairValue inventory)]
  simp only [computeQuote, roundCents_value]
  rw [roundCents_negative, ← not_le (a := (2 : ℤ) ^ 32), hask]
  simp only [reservationPrice, SPREAD, SKEW_K]
  push_cast
  constructor
  · rintro ⟨h₁, h₂⟩
    exact ⟨by linarith, by linarith⟩
  · rintro ⟨h₁, h₂⟩
    exact ⟨by linarith, fun h => by linarith⟩

example : (computeQuote (7 / 400) 0 SPREAD SKEW_K).bid = ⟨true, 0⟩ := by decide +kernel

/-- A thousand bids filled at the first quote: the next bid is below zero, and the venue answers it
with `bad_price`. -/
theorem skewed_bid_rejected :
    (positionAfter (bought 1000 (9998 / 100))).inventory = 10000 ∧
    (computeQuote 100 (positionAfter (bought 1000 (9998 / 100))).inventory SPREAD SKEW_K).bid =
      ⟨true, 2⟩ ∧
    ¬WireValid
        (computeQuote 100 (positionAfter (bought 1000 (9998 / 100))).inventory SPREAD SKEW_K) ∧
    ∀ (build : Build) (v : Venue 4) (c : Client) (t : UtcTime) (id : List Char),
      allLegible id = true →
      v.handle build (.line c.conn ((Request.newOrder id .buy ⟨true, 2⟩).payload t)) =
        .ok (v.send c.conn (.reject (utf8 id) .badPrice)) := by
  have hinv : (positionAfter (bought 1000 (9998 / 100))).inventory = 10000 := by
    rw [inventory_bought]
    rfl
  have hbid : (computeQuote 100 10000 SPREAD SKEW_K).bid = ⟨true, 2⟩ := by decide +kernel
  refine ⟨hinv, by rw [hinv, hbid], fun hvalid => ?_, fun build v c t id hid => ?_⟩
  · rw [hinv] at hvalid
    have hsign := ((wireValid_iff (computeQuote_lt 100 10000)).mp hvalid).1
    rw [hbid] at hsign
    cases hsign
  · rw [handle_newOrderRequest, if_pos hid]
    rfl

end MarketMakerOps.Ops
