import MarketMakerOps.Exchange.Venue
import MarketMakerOps.Engine.PriorityBook

/-!
The venue's tables while the book trades.

* `Fillable T t`: both legs of a trade are in the table, with room for it;
* `onTrade_live`, `onTrade_record`, `onTrade_sent`: what the callback then does;
* `Recorded`: live orders and resting client records name each other;
* `Holds T Q`: the table of live orders is the content of the queues `Q`;
* `Holds.sweep`: a sweep that meets no order of its own participant reports
  fillable trades only, and ends with the table in step with the queues.
-/

namespace MarketMakerOps.Exchange

open Decimal Engine

variable {cap : Nat}

section Maps

variable {κ ν : Type*} [DecidableEq κ] (m : AList fun _ : κ => ν) (a b : κ) (v : ν)

theorem lookup_insert_ite : (m.insert a v).lookup b = if b = a then some v else m.lookup b := by
  split
  · next h => rw [h, AList.lookup_insert]
  · next h => rw [AList.lookup_insert_ne h]

theorem lookup_erase_ite : (m.erase a).lookup b = if b = a then none else m.lookup b := by
  split
  · next h => rw [h, AList.lookup_erase]
  · next h => rw [AList.lookup_erase_ne h]

end Maps

/-- What is left of a live order after a fill of `q`. -/
def LiveOrder.after (lo : LiveOrder) (q : UInt32) : Option LiveOrder :=
  if lo.remaining - q = 0 then none else some { lo with remaining := lo.remaining - q }

/-- The fill message an owner receives. -/
def LiveOrder.fill (lo : LiveOrder) (t : Trade) : Sent :=
  (lo.owner, .fill lo.exchangeId lo.clientOrderId t.quantity t.price (lo.remaining - t.quantity))

namespace Tables

/-- The live order with an engine id. -/
def live (T : Tables) (id : UInt64) : Option LiveOrder := T.byEngineId.lookup id

/-- A connection's record of a client order id. -/
def record (T : Tables) (conn : ConnId) (cid : Bytes) : Option ClientRecord :=
  (T.byConn.lookup conn).bind fun records => records.lookup cid

/-- Entering a record. -/
theorem record_insert {T T' : Tables} {conn : ConnId} {cid : Bytes} {r : ClientRecord}
    (h : T'.byConn = T.byConn.insert conn (((T.byConn.lookup conn).getD ∅).insert cid r))
    (c : ConnId) (cid' : Bytes) :
    T'.record c cid' = if c = conn ∧ cid' = cid then some r else T.record c cid' := by
  simp only [record, h, lookup_insert_ite]
  by_cases hc : c = conn
  · subst hc
    by_cases hcid : cid' = cid
    · simp [hcid, lookup_insert_ite]
    · simp only [if_true, Option.bind_some, lookup_insert_ite, hcid, and_false, if_false]
      cases T.byConn.lookup c with
      | none => rfl
      | some records => rfl
  · simp [hc]

section Leg

variable {T : Tables} {id : UInt64} {lo : LiveOrder} {p q : UInt32}

theorem record_markRecord (T : Tables) (c c' : ConnId) (cid cid' : Bytes) (st : OrderState) :
    (T.markRecord c cid st).record c' cid' = if c' = c ∧ cid' = cid then
      (T.record c cid).map fun r => { r with state := st } else T.record c' cid' := by
  unfold markRecord
  cases hc : T.byConn.lookup c with
  | none =>
    show T.record c' cid' = _
    split
    · next h =>
      obtain ⟨rfl, rfl⟩ := h
      simp [record, hc]
    · rfl
  | some records =>
    simp only
    cases hr : records.lookup cid with
    | none =>
      show T.record c' cid' = _
      split
      · next h =>
        obtain ⟨rfl, rfl⟩ := h
        simp [record, hc, hr]
      · rfl
    | some r =>
      simp only [record, lookup_insert_ite, hc, Option.bind_some, hr]
      by_cases h1 : c' = c
      · subst h1
        by_cases h2 : cid' = cid <;> simp [h2, hc, lookup_insert_ite]
      · simp [h1]

@[simp] theorem markRecord_byEngineId (T : Tables) (c : ConnId) (cid : Bytes) (st : OrderState) :
    (T.markRecord c cid st).byEngineId = T.byEngineId := by
  unfold markRecord
  split
  · rfl
  · split <;> rfl

@[simp] theorem markRecord_sent (T : Tables) (c : ConnId) (cid : Bytes) (st : OrderState) :
    (T.markRecord c cid st).sent = T.sent := by
  unfold markRecord
  split
  · rfl
  · split <;> rfl

/-- The quantity a leg leaves open. -/
def remainingAfter (lo : LiveOrder) (q : UInt32) : UInt32 :=
  if lo.remaining > q then lo.remaining - q else 0

/-- The quantity left never underflows. -/
theorem remainingAfter_eq (h : q ≤ lo.remaining) : remainingAfter lo q = lo.remaining - q := by
  unfold remainingAfter
  split
  · rfl
  · next hgt =>
    have : lo.remaining = q := UInt32.le_antisymm (UInt32.not_lt.mp hgt) h
    rw [this, UInt32.sub_self]

/-- A leg without an entry does nothing. -/
theorem routeFill_of_none (h : T.live id = none) : T.routeFill id p q = T := by
  have hl : T.byEngineId.lookup id = none := h
  simp only [routeFill, hl]

/-- What a leg with an entry does. -/
theorem routeFill_spec (h : T.live id = some lo) :
    (∀ id', (T.routeFill id p q).live id' = if id' = id then
      (if remainingAfter lo q = 0 then none
        else some { lo with remaining := remainingAfter lo q }) else T.live id') ∧
    (T.routeFill id p q).sent = T.sent ++
      [(lo.owner, .fill lo.exchangeId lo.clientOrderId q p (remainingAfter lo q))] ∧
    ∀ c cid, (T.routeFill id p q).record c cid =
      if remainingAfter lo q = 0 ∧ c = lo.owner ∧ cid = lo.clientOrderId then
        (T.record c cid).map fun r => { r with state := .filled } else T.record c cid := by
  have hl : T.byEngineId.lookup id = some lo := h
  have hr : (if lo.remaining > q then lo.remaining - q else 0) = remainingAfter lo q := rfl
  simp only [routeFill, hl, hr]
  by_cases h0 : remainingAfter lo q = 0
  · simp only [h0, if_true, true_and]
    refine ⟨fun id' => ?_, by simp [send], fun c cid => ?_⟩
    · simp only [live, lookup_erase_ite, markRecord_byEngineId]
      rfl
    · have hm := record_markRecord (T.send lo.owner
        (.fill lo.exchangeId lo.clientOrderId q p 0)) lo.owner c lo.clientOrderId cid .filled
      simp only [record, send] at hm ⊢
      rw [hm]
      split
      · next hc => rw [hc.1, hc.2]
      · rfl
  · simp only [h0, if_false, false_and]
    exact ⟨fun id' => lookup_insert_ite _ _ _ _, rfl, fun _ _ => rfl⟩

theorem routeFill_live (h : T.live id = some lo) (hq : q ≤ lo.remaining) (id' : UInt64) :
    (T.routeFill id p q).live id' = if id' = id then lo.after q else T.live id' := by
  rw [(routeFill_spec h).1, remainingAfter_eq hq]
  rfl

theorem routeFill_sent (h : T.live id = some lo) (hq : q ≤ lo.remaining) :
    (T.routeFill id p q).sent = T.sent ++
      [(lo.owner, .fill lo.exchangeId lo.clientOrderId q p (lo.remaining - q))] := by
  rw [(routeFill_spec h).2.1, remainingAfter_eq hq]

/-- A leg that completes its order marks the owner's record. -/
theorem routeFill_record (h : T.live id = some lo) (hq : q ≤ lo.remaining) (c : ConnId)
    (cid : Bytes) : (T.routeFill id p q).record c cid =
      if lo.after q = none ∧ c = lo.owner ∧ cid = lo.clientOrderId then
        (T.record c cid).map fun r => { r with state := .filled } else T.record c cid := by
  have hafter : lo.after q = none ↔ lo.remaining - q = 0 := by
    rw [LiveOrder.after]
    split <;> simp_all
  simp only [(routeFill_spec h).2.2, remainingAfter_eq hq, hafter]

end Leg

/-! ## Both legs -/

/-- Both legs of a trade are live, on their own sides, with room for
it and at a price within both limits. -/
structure Fillable (T : Tables) (t : Trade) (b s : LiveOrder) : Prop where
  buy : T.live t.buyOrderId = some b
  sell : T.live t.sellOrderId = some s
  buySide : b.side = .buy
  sellSide : s.side = .sell
  owners : b.owner ≠ s.owner
  positive : 0 < t.quantity
  buyRoom : t.quantity ≤ b.remaining
  sellRoom : t.quantity ≤ s.remaining
  buyPrice : t.price ≤ b.priceTicks
  sellPrice : s.priceTicks ≤ t.price

section Both

variable {T : Tables} {t : Trade} {b s : LiveOrder}

theorem Fillable.ids_ne (h : T.Fillable t b s) : t.sellOrderId ≠ t.buyOrderId := by
  intro he
  have hs := h.sell
  rw [he, h.buy, Option.some_inj] at hs
  have := h.sellSide
  rw [← hs, h.buySide] at this
  cases this

/-- The seller's order is untouched by the buyer's leg. -/
theorem Fillable.sell_after (h : T.Fillable t b s) {T' : Tables}
    (hT' : T' = { T with lastTradeTicks := t.price, hasLastTrade := true }) :
    (T'.routeFill t.buyOrderId t.price t.quantity).live t.sellOrderId = some s := by
  subst hT'
  have hb : ({ T with lastTradeTicks := t.price, hasLastTrade := true } : Tables).live
      t.buyOrderId = some b := h.buy
  rw [routeFill_live hb h.buyRoom, if_neg h.ids_ne]
  exact h.sell

theorem onTrade_live (h : T.Fillable t b s) (id : UInt64) : (T.onTrade t).live id =
    if id = t.buyOrderId then b.after t.quantity
    else if id = t.sellOrderId then s.after t.quantity else T.live id := by
  have hb : ({ T with lastTradeTicks := t.price, hasLastTrade := true } : Tables).live
      t.buyOrderId = some b := h.buy
  rw [onTrade, routeFill_live (h.sell_after rfl) h.sellRoom, routeFill_live hb h.buyRoom]
  by_cases h1 : id = t.sellOrderId
  · have h2 : id ≠ t.buyOrderId := h1 ▸ h.ids_ne
    simp [h1, h.ids_ne]
  · simp only [h1, if_false]
    rfl

theorem onTrade_sent (h : T.Fillable t b s) :
    (T.onTrade t).sent = T.sent ++ [b.fill t, s.fill t] := by
  have hb : ({ T with lastTradeTicks := t.price, hasLastTrade := true } : Tables).live
      t.buyOrderId = some b := h.buy
  rw [onTrade, routeFill_sent (h.sell_after rfl) h.sellRoom, routeFill_sent hb h.buyRoom,
    List.append_assoc]
  rfl

theorem onTrade_record (h : T.Fillable t b s) (c : ConnId) (cid : Bytes) :
    (T.onTrade t).record c cid =
      if (b.after t.quantity = none ∧ c = b.owner ∧ cid = b.clientOrderId) ∨
          (s.after t.quantity = none ∧ c = s.owner ∧ cid = s.clientOrderId) then
        (T.record c cid).map fun r => { r with state := .filled } else T.record c cid := by
  have hb : ({ T with lastTradeTicks := t.price, hasLastTrade := true } : Tables).live
      t.buyOrderId = some b := h.buy
  rw [onTrade, routeFill_record (h.sell_after rfl) h.sellRoom, routeFill_record hb h.buyRoom]
  by_cases h1 : b.after t.quantity = none ∧ c = b.owner ∧ cid = b.clientOrderId
  · have h2 : ¬ (s.after t.quantity = none ∧ c = s.owner ∧ cid = s.clientOrderId) := by
      rintro ⟨-, hc, -⟩
      exact h.owners (h1.2.1.symm.trans hc)
    rw [if_pos h1, if_neg h2, if_pos (Or.inl h1)]
    rfl
  · simp only [h1, if_false, false_or]
    rfl

end Both

/-! ## Records -/

/-- Live orders and resting records name each other; every record holds an id issued among the
first `n`, no two records the same. -/
structure Recorded (n : Nat) (T : Tables) : Prop where
  entry : ∀ id lo, T.live id = some lo → lo.exchangeId = exchangeId id ∧
    ∃ r, T.record lo.owner lo.clientOrderId = some r ∧ r.engineId = id ∧ r.state = .resting
  resting : ∀ c cid r, T.record c cid = some r → r.state = .resting →
    ∃ lo, T.live r.engineId = some lo ∧ lo.owner = c ∧ lo.clientOrderId = cid
  issued : ∀ c cid r, T.record c cid = some r → r.exchangeId = exchangeId r.engineId ∧
    1 ≤ r.engineId.toNat ∧ r.engineId.toNat ≤ n
  inj : ∀ c cid r c' cid' r', T.record c cid = some r → T.record c' cid' = some r' →
    r.engineId = r'.engineId → c = c' ∧ cid = cid'

section Records

variable {T : Tables} {n : Nat} {t : Trade} {b s : LiveOrder}

theorem Recorded.live_issued (h : T.Recorded n) {id : UInt64} {lo : LiveOrder}
    (hl : T.live id = some lo) : 1 ≤ id.toNat ∧ id.toNat ≤ n := by
  obtain ⟨-, r, hr, rfl, -⟩ := h.entry id lo hl
  exact (h.issued _ _ r hr).2

/-- A record after a trade is the record before, marked if its order is complete. -/
theorem record_of_onTrade (h : T.Fillable t b s) {c : ConnId} {cid : Bytes} {r' : ClientRecord}
    (hr' : (T.onTrade t).record c cid = some r') : ∃ r, T.record c cid = some r ∧
      r'.engineId = r.engineId ∧ r'.exchangeId = r.exchangeId ∧
      (r'.state = .resting → r' = r ∧ ¬ (b.after t.quantity = none ∧ c = b.owner ∧
        cid = b.clientOrderId) ∧ ¬ (s.after t.quantity = none ∧ c = s.owner ∧
        cid = s.clientOrderId)) := by
  rw [onTrade_record h] at hr'
  split at hr'
  · obtain ⟨r, hr, rfl⟩ := Option.map_eq_some_iff.mp hr'
    exact ⟨r, hr, rfl, rfl, fun hst => by cases hst⟩
  · next hno =>
    exact ⟨r', hr', rfl, rfl, fun _ => ⟨rfl, fun hb => hno (Or.inl hb), fun hs => hno (Or.inr hs)⟩⟩

/-- The record of an order that a trade leaves live is not marked. -/
theorem record_of_live (h : T.Fillable t b s) (hrec : T.Recorded n) {id : UInt64} {lo : LiveOrder}
    (hl : T.live id = some lo) (hb : id = t.buyOrderId → b.after t.quantity ≠ none)
    (hs : id = t.sellOrderId → s.after t.quantity ≠ none) :
    (T.onTrade t).record lo.owner lo.clientOrderId = T.record lo.owner lo.clientOrderId := by
  obtain ⟨-, r, hr, hid, -⟩ := hrec.entry id lo hl
  have hother : ∀ {id' lo'}, T.live id' = some lo' → lo.owner = lo'.owner →
      lo.clientOrderId = lo'.clientOrderId → id = id' := by
    intro id' lo' hl' ho hc
    obtain ⟨-, r', hr', hid', -⟩ := hrec.entry id' lo' hl'
    rw [← ho, ← hc, hr, Option.some_inj] at hr'
    rw [← hid, ← hid', hr']
  rw [onTrade_record h, if_neg]
  rintro (⟨hn, ho, hc⟩ | ⟨hn, ho, hc⟩)
  · exact hb (hother h.buy ho hc) hn
  · exact hs (hother h.sell ho hc) hn

/-- A trade keeps records and live orders in step. -/
theorem Recorded.onTrade (hrec : T.Recorded n) (h : T.Fillable t b s) :
    (T.onTrade t).Recorded n := by
  have hpart : ∀ {id lo lo'}, T.live id = some lo → lo.after t.quantity = some lo' →
      lo'.exchangeId = lo.exchangeId ∧ lo'.owner = lo.owner ∧
        lo'.clientOrderId = lo.clientOrderId := by
    intro id lo lo' _ ha
    unfold LiveOrder.after at ha
    split at ha
    · cases ha
    · cases ha
      exact ⟨rfl, rfl, rfl⟩
  refine ⟨?_, ?_, ?_, ?_⟩
  · intro id lo' hl'
    -- the order is what was live before, with less left when it is a leg
    have hbefore : ∃ lo, T.live id = some lo ∧ lo'.exchangeId = lo.exchangeId ∧
        lo'.owner = lo.owner ∧ lo'.clientOrderId = lo.clientOrderId ∧
        (id = t.buyOrderId → b.after t.quantity ≠ none) ∧
        (id = t.sellOrderId → s.after t.quantity ≠ none) := by
      rw [onTrade_live h] at hl'
      split at hl'
      · next hid =>
        obtain ⟨h1, h2, h3⟩ := hpart h.buy hl'
        refine ⟨b, hid ▸ h.buy, h1, h2, h3, fun _ hn => ?_, fun hs => ?_⟩
        · rw [hl'] at hn
          cases hn
        · exact absurd (hs.symm.trans hid) h.ids_ne
      · next hid =>
        split at hl'
        · next hid' =>
          obtain ⟨h1, h2, h3⟩ := hpart h.sell hl'
          refine ⟨s, hid' ▸ h.sell, h1, h2, h3, fun hb => absurd hb hid, fun _ hn => ?_⟩
          rw [hl'] at hn
          cases hn
        · next hid' =>
          exact ⟨lo', hl', rfl, rfl, rfl, fun hb => absurd hb hid, fun hs => absurd hs hid'⟩
    obtain ⟨lo, hl, he, ho, hc, hb, hs⟩ := hbefore
    obtain ⟨hex, hr⟩ := hrec.entry id lo hl
    rw [he, ho, hc, record_of_live h hrec hl hb hs]
    exact ⟨hex, hr⟩
  · intro c cid r' hr' hst
    obtain ⟨r, hr, -, -, hsame⟩ := record_of_onTrade h hr'
    obtain ⟨rfl, hnb, hns⟩ := hsame hst
    obtain ⟨lo, hl, ho, hc⟩ := hrec.resting c cid r' hr hst
    have hkeep : ∀ {lo' : LiveOrder}, lo'.owner = c → lo'.clientOrderId = cid →
        ¬ (lo'.after t.quantity = none ∧ c = lo'.owner ∧ cid = lo'.clientOrderId) →
        ∃ lo'', lo'.after t.quantity = some lo'' ∧ lo''.owner = c ∧ lo''.clientOrderId = cid := by
      intro lo' ho' hc' hno
      cases ha : lo'.after t.quantity with
      | none => exact absurd ⟨ha, ho'.symm, hc'.symm⟩ hno
      | some lo'' =>
        unfold LiveOrder.after at ha
        split at ha
        · cases ha
        · cases ha
          exact ⟨_, rfl, ho', hc'⟩
    rw [onTrade_live h]
    by_cases h1 : r'.engineId = t.buyOrderId
    · rw [h1, h.buy, Option.some_inj] at hl
      subst hl
      rw [if_pos h1]
      exact hkeep ho hc hnb
    · rw [if_neg h1]
      by_cases h2 : r'.engineId = t.sellOrderId
      · rw [h2, h.sell, Option.some_inj] at hl
        subst hl
        rw [if_pos h2]
        exact hkeep ho hc hns
      · rw [if_neg h2]
        exact ⟨lo, hl, ho, hc⟩
  · intro c cid r' hr'
    obtain ⟨r, hr, hid, hex, -⟩ := record_of_onTrade h hr'
    rw [hid, hex]
    exact hrec.issued c cid r hr
  · intro c cid r₁ c' cid' r₂ h₁ h₂ heq
    obtain ⟨r₁', hr₁, hid₁, -⟩ := record_of_onTrade h h₁
    obtain ⟨r₂', hr₂, hid₂, -⟩ := record_of_onTrade h h₂
    exact hrec.inj c cid r₁' c' cid' r₂' hr₁ hr₂ (hid₁ ▸ hid₂ ▸ heq)

end Records

/-! ## A sweep -/

/-- The callback meets a fillable trade every time. -/
def Fills (T : Tables) : List Trade → Prop
  | [] => True
  | t :: ts => (∃ b s, T.Fillable t b s) ∧ Fills (T.onTrade t) ts

/-- The table after the callback ran on each trade. -/
def afterTrades (T : Tables) (ts : List Trade) : Tables :=
  ts.foldl (fun T t => T.onTrade t) T

/-- The callback appends two fills a trade. -/
theorem afterTrades_sent {T : Tables} {ts : List Trade} (h : T.Fills ts) :
    ∃ msgs, (T.afterTrades ts).sent = T.sent ++ msgs := by
  induction ts generalizing T with
  | nil => exact ⟨[], (List.append_nil _).symm⟩
  | cons t ts ih =>
    obtain ⟨⟨b, s, hf⟩, hts⟩ := h
    obtain ⟨msgs, hmsgs⟩ := ih hts
    refine ⟨[b.fill t, s.fill t] ++ msgs, ?_⟩
    rw [← List.append_assoc, ← onTrade_sent hf]
    exact hmsgs

theorem Recorded.afterTrades {T : Tables} {n : Nat} {ts : List Trade} (hrec : T.Recorded n)
    (h : T.Fills ts) : (T.afterTrades ts).Recorded n := by
  induction ts generalizing T with
  | nil => exact hrec
  | cons t ts ih =>
    obtain ⟨⟨b, s, hf⟩, hts⟩ := h
    exact ih (hrec.onTrade hf) hts

/-- A live order is the table's entry of a queued one. -/
structure Mirrors (s : Side) (e : Resting cap) (lo : LiveOrder) : Prop where
  owner : lo.owner = e.participantId
  side : lo.side = s
  priceTicks : lo.priceTicks = e.price
  remaining : lo.remaining = e.quantity

/-- The table of live orders is the content of the queues. -/
structure Holds (T : Tables) (Q : Side → List (Resting cap)) : Prop where
  queued : ∀ s, ∀ e ∈ Q s, ∃ lo, T.live e.orderId = some lo ∧ Mirrors s e lo
  live : ∀ id lo, T.live id = some lo → ∃ s, ∃ e ∈ Q s, e.orderId = id

/-- The queues while an incoming order with `q` open meets `P`; its own side holds `O`. -/
def midway (side : Side) (inc : Resting cap) (q : UInt32) (O P : List (Resting cap)) :
    Side → List (Resting cap) := fun s =>
  if s = side then (if q = 0 then O else { inc with quantity := q } :: O) else P

section Sweep

variable {T : Tables} {side : Side} {inc e : Resting cap} {O P : List (Resting cap)} {q f : UInt32}

/-- The incoming order has an id of its own, and so has everything it meets. -/
def OwnIds (inc : Resting cap) (O P : List (Resting cap)) : Prop :=
  (inc.orderId :: (O.map Resting.orderId ++ P.map Resting.orderId)).Nodup

theorem OwnIds.apart (h : OwnIds inc O (e :: P)) : inc.orderId ≠ e.orderId ∧
    (∀ x ∈ O, x.orderId ≠ inc.orderId ∧ x.orderId ≠ e.orderId) ∧
    ∀ x ∈ P, x.orderId ≠ inc.orderId ∧ x.orderId ≠ e.orderId := by
  obtain ⟨hinc, hnd⟩ := List.nodup_cons.mp h
  obtain ⟨-, hP, hdisj⟩ := List.nodup_append.mp hnd
  rw [List.map_cons, List.nodup_cons] at hP
  simp only [List.map_cons, List.mem_append, List.mem_cons, not_or] at hinc hdisj
  refine ⟨hinc.2.1, fun x hx => ⟨fun he => hinc.1 ?_, ?_⟩, fun x hx => ⟨fun he => hinc.2.2 ?_, ?_⟩⟩
  · exact he ▸ List.mem_map_of_mem hx
  · exact hdisj _ (List.mem_map_of_mem hx) _ (Or.inl rfl)
  · exact he ▸ List.mem_map_of_mem hx
  · exact fun he => hP.1 (he ▸ List.mem_map_of_mem hx)

theorem OwnIds.tail (h : OwnIds inc O (e :: P)) : OwnIds inc O P := by
  refine List.Nodup.sublist ?_ h
  exact List.Sublist.cons_cons _ (List.Sublist.append_left (List.sublist_cons_self _ _) _)

theorem Mirrors.after {lo : LiveOrder} {s : Side} (h : Mirrors s e lo) (hne : e.quantity - f ≠ 0) :
    ∃ lo', lo.after f = some lo' ∧ Mirrors s { e with quantity := e.quantity - f } lo' := by
  refine ⟨{ lo with remaining := lo.remaining - f }, ?_, h.owner, h.side, h.priceTicks, ?_⟩
  · rw [LiveOrder.after, if_neg (by rwa [h.remaining])]
  · rw [h.remaining]

theorem Mirrors.after_eq_none {lo : LiveOrder} {s : Side} (h : Mirrors s e lo) :
    lo.after f = none ↔ e.quantity - f = 0 := by
  rw [LiveOrder.after, h.remaining]
  split <;> simp_all

/-- The limit of the incoming order reaches the price. -/
theorem price_le_of_crossing {p r : UInt32} (h : ¬ side.opposite.rank r < side.opposite.rank p) :
    (side = .buy → r ≤ p) ∧ (side = .sell → p ≤ r) := by
  have hp := p.toNat_lt
  have hr := r.toNat_lt
  constructor <;> rintro rfl <;>
    simp only [Side.opposite, Side.rank, UInt32.le_iff_toNat_le] at h ⊢ <;> omega

/-- The trade of the incoming order with the best resting one has both legs in the table. -/
theorem Holds.fillable (h : T.Holds (midway side inc q O (e :: P))) (hf : 0 < f) (hfq : f ≤ q)
    (hfe : f ≤ e.quantity) (hcross : ¬ side.opposite.rank e.price < side.opposite.rank inc.price)
    (hself : e.participantId ≠ inc.participantId) (hids : OwnIds inc O (e :: P)) :
    ∃ li le, Mirrors side { inc with quantity := q } li ∧ Mirrors side.opposite e le ∧
      (∃ b s, T.Fillable (tradeOf side.opposite inc.orderId e.orderId e.price f) b s) ∧
      ∀ id, (T.onTrade (tradeOf side.opposite inc.orderId e.orderId e.price f)).live id =
        if id = inc.orderId then li.after f else if id = e.orderId then le.after f
        else T.live id := by
  have hq : q ≠ 0 := by
    rintro rfl
    exact absurd hf (UInt32.not_lt.mpr hfq)
  obtain ⟨li, hli, hmi⟩ := h.queued side { inc with quantity := q } (by simp [midway, hq])
  obtain ⟨le, hle, hme⟩ := h.queued side.opposite e (by simp [midway, side.ne_opposite.symm])
  obtain ⟨hle', hge'⟩ := price_le_of_crossing hcross
  have howner : li.owner ≠ le.owner := by
    rw [hmi.owner, hme.owner]
    exact hself.symm
  have hroomi : f ≤ li.remaining := by rw [hmi.remaining]; exact hfq
  have hroome : f ≤ le.remaining := by rw [hme.remaining]; exact hfe
  refine ⟨li, le, hmi, hme, ?_⟩
  cases side with
  | buy =>
    have hfill : T.Fillable (tradeOf Side.buy.opposite inc.orderId e.orderId e.price f) li le :=
      ⟨hli, hle, hmi.side, hme.side, howner, hf, hroomi, hroome,
        by rw [hmi.priceTicks]; exact hle' rfl, by rw [hme.priceTicks]; exact UInt32.le_refl _⟩
    exact ⟨⟨li, le, hfill⟩, onTrade_live hfill⟩
  | sell =>
    have hfill : T.Fillable (tradeOf Side.sell.opposite inc.orderId e.orderId e.price f) le li :=
      ⟨hle, hli, hme.side, hmi.side, howner.symm, hf, hroome, hroomi,
        by rw [hme.priceTicks]; exact UInt32.le_refl _, by rw [hmi.priceTicks]; exact hge' rfl⟩
    refine ⟨⟨le, li, hfill⟩, fun id => ?_⟩
    rw [onTrade_live hfill]
    simp only [tradeOf, Side.opposite]
    by_cases h1 : id = inc.orderId
    · have h2 : id ≠ e.orderId := h1 ▸ hids.apart.1
      simp [h1, hids.apart.1]
    · simp [h1]

/-- After that trade the table holds what is left of both orders. -/
theorem Holds.trade (h : T.Holds (midway side inc q O (e :: P))) (hf : 0 < f) (hfq : f ≤ q)
    (hfe : f ≤ e.quantity) (hcross : ¬ side.opposite.rank e.price < side.opposite.rank inc.price)
    (hself : e.participantId ≠ inc.participantId) (hids : OwnIds inc O (e :: P)) :
    (∃ b s, T.Fillable (tradeOf side.opposite inc.orderId e.orderId e.price f) b s) ∧
    (T.onTrade (tradeOf side.opposite inc.orderId e.orderId e.price f)).Holds
      (midway side inc (q - f) O
        (if e.quantity - f = 0 then P else { e with quantity := e.quantity - f } :: P)) := by
  obtain ⟨li, le, hmi, hme, hfill, hlive⟩ := h.fillable hf hfq hfe hcross hself hids
  obtain ⟨hie, hO, hP⟩ := hids.apart
  have hne := side.ne_opposite
  refine ⟨hfill, ⟨?_, ?_⟩⟩
  · have hkeep : ∀ s, ∀ x ∈ midway side inc q O (e :: P) s, x.orderId ≠ inc.orderId →
        x.orderId ≠ e.orderId → ∃ lo, (T.onTrade (tradeOf side.opposite inc.orderId e.orderId
          e.price f)).live x.orderId = some lo ∧ Mirrors s x lo := by
      intro s x hx h1 h2
      rw [hlive, if_neg h1, if_neg h2]
      exact h.queued s x hx
    have hq : q ≠ 0 := by
      rintro rfl
      exact absurd hf (UInt32.not_lt.mpr hfq)
    refine forall_side side ?_ ?_ <;> intro x hx
    · have hxO : (q - f ≠ 0 ∧ x = { inc with quantity := q - f }) ∨ x ∈ O := by
        simp only [midway, if_true] at hx
        split at hx
        · exact Or.inr hx
        · next h0 => exact (List.mem_cons.mp hx).imp (fun hx => ⟨h0, hx⟩) id
      rcases hxO with ⟨h0, rfl⟩ | hxO
      · rw [hlive, if_pos rfl]
        exact hmi.after h0
      · exact hkeep side x (by simp [midway, hq, hxO]) (hO x hxO).1 (hO x hxO).2
    · have hxP : (e.quantity - f ≠ 0 ∧ x = { e with quantity := e.quantity - f }) ∨ x ∈ P := by
        simp only [midway, hne.symm, if_false] at hx
        split at hx
        · exact Or.inr hx
        · next h0 => exact (List.mem_cons.mp hx).imp (fun hx => ⟨h0, hx⟩) id
      rcases hxP with ⟨h0, rfl⟩ | hxP
      · rw [hlive, if_neg hie.symm, if_pos rfl]
        exact hme.after h0
      · exact hkeep side.opposite x (by simp [midway, hne.symm, hxP]) (hP x hxP).1 (hP x hxP).2
  · intro id lo hlo
    rw [hlive] at hlo
    split at hlo
    · next hid =>
      have h0 : q - f ≠ 0 := fun h0 => by
        rw [hmi.after_eq_none.mpr h0] at hlo
        cases hlo
      exact ⟨side, { inc with quantity := q - f }, by simp [midway, h0], hid.symm⟩
    · next hid =>
      split at hlo
      · next hid' =>
        have h0 : e.quantity - f ≠ 0 := fun h0 => by
          rw [hme.after_eq_none.mpr h0] at hlo
          cases hlo
        exact ⟨side.opposite, { e with quantity := e.quantity - f },
          by simp [midway, hne.symm, h0], hid'.symm⟩
      · next hid' =>
        obtain ⟨s, x, hx, rfl⟩ := h.live id lo hlo
        rcases Side.eq_or_opposite s side with rfl | rfl
        · have hxO : x ∈ O := by
            simp only [midway, if_true] at hx
            split at hx
            · exact hx
            · rcases List.mem_cons.mp hx with rfl | hx
              · exact absurd rfl hid
              · exact hx
          exact ⟨s, x, by simp only [midway, if_true]; split <;> simp [hxO], rfl⟩
        · have hxP : x ∈ P := by
            simp only [midway, hne.symm, if_false] at hx
            rcases List.mem_cons.mp hx with rfl | hx
            · exact absurd rfl hid'
            · exact hx
          exact ⟨side.opposite, x, by simp only [midway, hne.symm, if_false]; split <;> simp [hxP],
            rfl⟩

/-- A sweep past other participants' orders: every trade is fillable, and the table ends in step. -/
theorem Holds.sweep (h : T.Holds (midway side inc q O P)) (hpos : ∀ e ∈ P, 0 < e.quantity)
    (hself : ∀ e ∈ P, ¬ side.opposite.rank e.price < side.opposite.rank inc.price →
      e.participantId ≠ inc.participantId) (hids : OwnIds inc O P) :
    T.Fills (sweep side.opposite inc q P).trades ∧
    (T.afterTrades (sweep side.opposite inc q P).trades).Holds
      (midway side inc (sweep side.opposite inc q P).left O
        (sweep side.opposite inc q P).queue) := by
  induction P generalizing T q with
  | nil => exact ⟨trivial, h⟩
  | cons e P ih =>
    by_cases hstop : q = 0 ∨ side.opposite.rank e.price < side.opposite.rank inc.price
    · simp only [Engine.sweep, hstop, if_true]
      exact ⟨trivial, h⟩
    · have hq : 0 < q := UInt32.pos_iff_ne_zero.mpr fun h0 => hstop (Or.inl h0)
      have hcross := fun hlt => hstop (Or.inr hlt)
      have hne := hself e List.mem_cons_self hcross
      have hepos := hpos e List.mem_cons_self
      by_cases hqe : q < e.quantity
      · have h0 : e.quantity - q ≠ 0 := by grind
        obtain ⟨hfill, hH⟩ := h.trade hq (UInt32.le_refl _) (UInt32.le_of_lt hqe) hcross hne hids
        rw [UInt32.sub_self, if_neg h0] at hH
        simp only [Engine.sweep, hstop, hne, hqe, if_true, if_false]
        exact ⟨⟨hfill, trivial⟩, hH⟩
      · obtain ⟨hfill, hH⟩ :=
          h.trade hepos (UInt32.not_lt.mp hqe) (UInt32.le_refl _) hcross hne hids
        rw [UInt32.sub_self, if_pos rfl] at hH
        obtain ⟨hfills, hrest⟩ := ih hH (fun x hx => hpos x (List.mem_cons_of_mem _ hx))
          (fun x hx => hself x (List.mem_cons_of_mem _ hx)) hids.tail
        simp only [Engine.sweep, hstop, hne, hqe, if_false]
        exact ⟨⟨hfill, hfills⟩, hrest⟩

end Sweep

end Tables

end MarketMakerOps.Exchange
