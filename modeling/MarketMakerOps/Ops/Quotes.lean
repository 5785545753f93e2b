import MarketMakerOps.Exchange.FrameLimit
import MarketMakerOps.Exchange.Replies
import MarketMakerOps.Ops.MarketMaker

/-!
The maker's quotes at the venue.

* `Phase`: which orders of which tick may be live, as the requests come in;
* `Phase.Next`: what each request of a tick does to the phase;
* `Bounds`: the venue's tables hold no other order of the maker;
* `Bounds.next`, `Bounds.others`: requests move the phase on, the rest of the world keeps it;
* `quotes_safe`: no orphaned quote, no crossed quotes, no self match, no duplicate id.
-/

namespace MarketMakerOps.Ops

open Decimal Engine Exchange Fallible

variable {cap : Nat} {build : Build} {c : Client}

/-! ## Prices -/

/-- The ticks of a price: none behind a minus sign or beyond 32 bits. -/
def Price.ticks? (p : Price) : Option UInt32 := if p.negative then none else toUint32? p.cents

theorem Price.ticks?_eq_some {p : Price} {ticks : UInt32} :
    p.ticks? = some ticks ↔ p.negative = false ∧ (ticks.toNat : ℤ) = p.value := by
  have hlt := ticks.toNat_lt
  rw [Price.ticks?, Price.value]
  cases p.negative with
  | true => simp
  | false =>
    rw [if_neg Bool.false_ne_true, if_neg Bool.false_ne_true, toUint32?]
    constructor
    · intro h
      split at h
      · next hmax =>
        have hfits : p.cents < 2 ^ 32 := by
          unfold uint32Max at hmax
          omega
        cases h
        rw [UInt32.toNat_ofNat_of_lt' hfits]
        exact ⟨rfl, rfl⟩
      · cases h
    · rintro ⟨-, heq⟩
      have hcents : p.cents = ticks.toNat := by omega
      rw [hcents, if_pos (by unfold uint32Max; omega), UInt32.ofNat_toNat]

/-! ## Ids -/

theorem utf8_append (s t : List Char) : utf8 (s ++ t) = utf8 s ++ utf8 t := List.flatMap_append

theorem utf8_toDigits (n : Nat) : utf8 (Nat.toDigits 10 n) = toDecimal n := by
  have hmap : ∀ s : List Char, (∀ c ∈ s, isLegible c = true) →
      utf8 s = s.map fun c => UInt8.ofNat c.toNat := by
    intro s hs
    induction s with
    | nil => rfl
    | cons c s ih =>
      obtain ⟨hc, hs⟩ := List.forall_mem_cons.mp hs
      have htail := ih hs
      unfold utf8 at htail ⊢
      rw [List.flatMap_cons, utf8EncodeChar_legible hc, htail]
      rfl
  exact hmap _ (isLegible_toDigits n)

/-- Ids differ by their numbers. -/
theorem makeClientOrderId_inj {head runId : List Char} {pid m n : Nat}
    (h : utf8 (makeClientOrderId head runId pid m) = utf8 (makeClientOrderId head runId pid n)) :
    m = n := by
  have hid : ∀ k, utf8 (makeClientOrderId head runId pid k) = utf8 (head ++ '-' ::
      (if runId = [] then Nat.toDigits 10 pid else runId)) ++ (utf8 ['-'] ++ toDecimal k) := by
    intro k
    rw [makeClientOrderId, utf8_append, ← utf8_toDigits, ← utf8_append ['-']]
    rfl
  rw [hid, hid, List.append_cancel_left_eq, List.append_cancel_left_eq] at h
  exact toDecimal_inj.mp h

theorem Client.id_inj {m n : Nat} (h : utf8 (c.id m) = utf8 (c.id n)) : m = n :=
  makeClientOrderId_inj h

theorem Client.isLegible_id (n : Nat) : (∀ ch ∈ c.id n, isLegible ch = true) ↔
    ∀ ch ∈ c.runId, isLegible ch = true := isLegible_makeClientOrderId c.runId c.pid n

/-! ## Phases -/

/-- The maker's orders that may be live: none; the bid of a pair; both; its ask. `n` ids were drawn
before the pair. -/
inductive Phase
  | clear (n : Nat)
  | bidOut (n : Nat) (quote : Quote)
  | both (n : Nat) (quote : Quote)
  | askOnly (n : Nat) (quote : Quote)

namespace Phase

/-- The orders, by number, side and price. -/
def orders : Phase → List (Nat × OrderSide × Price)
  | clear _ => []
  | bidOut n q => [(n + 1, .buy, q.bid)]
  | both n q => [(n + 1, .buy, q.bid), (n + 2, .sell, q.ask)]
  | askOnly n q => [(n + 2, .sell, q.ask)]

/-- The ids the venue has seen. -/
def used : Phase → Nat
  | clear n => n
  | bidOut n _ => n + 1
  | both n _ => n + 2
  | askOnly n _ => n + 2

/-- The requests of a tick, one after the other; its pair is among the `pairs` made. -/
inductive Next (c : Client) (pairs : List Pair) : Phase → Request → Phase → Prop
  | bid (n : Nat) (q : Quote) (made : ⟨c.id (n + 1), c.id (n + 2), q⟩ ∈ pairs) :
      Next c pairs (clear n) (.newOrder (c.id (n + 1)) .buy q.bid) (bidOut n q)
  | ask (n : Nat) (q : Quote) :
      Next c pairs (bidOut n q) (.newOrder (c.id (n + 2)) .sell q.ask) (both n q)
  | cancelBid (n : Nat) (q : Quote) :
      Next c pairs (both n q) (.cancel (c.id (n + 1))) (askOnly n q)
  | cancelAsk (n : Nat) (q : Quote) :
      Next c pairs (askOnly n q) (.cancel (c.id (n + 2))) (clear (n + 2))

/-- The requests under way lead from the venue's phase to the maker's. -/
inductive Path (c : Client) (pairs : List Pair) : Phase → List Request → Phase → Prop
  | nil (φ : Phase) : Path c pairs φ [] φ
  | cons {φ χ ψ : Phase} {r : Request} {rs : List Request} (next : Next c pairs φ r χ)
      (rest : Path c pairs χ rs ψ) : Path c pairs φ (r :: rs) ψ

variable {pairs : List Pair} {φ χ ψ : Phase} {r : Request} {rs : List Request}

theorem Next.mono (h : Next c pairs φ r χ) (p : Pair) : Next c (pairs ++ [p]) φ r χ := by
  cases h with
  | bid n q made => exact .bid n q (List.mem_append_left _ made)
  | ask n q => exact .ask n q
  | cancelBid n q => exact .cancelBid n q
  | cancelAsk n q => exact .cancelAsk n q

theorem Path.mono (h : Path c pairs φ rs ψ) (p : Pair) : Path c (pairs ++ [p]) φ rs ψ := by
  induction h with
  | nil φ => exact .nil φ
  | cons next rest ih => exact .cons (next.mono p) ih

/-- One more request at the end. -/
theorem Path.snoc (h : Path c pairs φ rs χ) (hr : Next c pairs χ r ψ) :
    Path c pairs φ (rs ++ [r]) ψ := by
  induction h with
  | nil φ => exact .cons hr (.nil ψ)
  | cons next rest ih => exact .cons next (ih hr)

end Phase

/-! ## The venue's tables -/

/-- Of the maker's orders at most those of the phase are live, each under the engine id of its
record; no id is recorded that has not come in; fills name ids that have. -/
structure Bounds (c : Client) (φ : Phase) (T : Tables) : Prop where
  live : ∀ id lo, T.live id = some lo → lo.owner = c.conn → ∃ o ∈ φ.orders,
    lo.clientOrderId = utf8 (c.id o.1) ∧ lo.side = o.2.1 ∧ o.2.2.ticks? = some lo.priceTicks
  legible : ∀ id lo, T.live id = some lo → lo.owner = c.conn →
    ∀ ch ∈ c.runId, isLegible ch = true
  linked : ∀ id lo, T.live id = some lo → lo.owner = c.conn → ∃ r,
    T.record c.conn lo.clientOrderId = some r ∧ r.engineId = id ∧ r.state = .resting
  recorded : ∀ cid r, T.record c.conn cid = some r → ∃ n ≤ φ.used, cid = utf8 (c.id n)
  fills : ∀ m ∈ T.sent, m.1 = c.conn → m.2.isFill = true →
    ∃ n ≤ φ.used, 1 ≤ n ∧ m.2.clientOrderId = utf8 (c.id n)

theorem Phase.orders_used {φ : Phase} {o : Nat × OrderSide × Price} (h : o ∈ φ.orders) :
    1 ≤ o.1 ∧ o.1 ≤ φ.used := by
  cases φ with
  | clear n => cases h
  | bidOut n q =>
    rw [List.mem_singleton.mp h]
    exact ⟨Nat.le_add_left 1 n, le_rfl⟩
  | both n q =>
    rcases List.mem_cons.mp h with rfl | h
    · exact ⟨Nat.le_add_left 1 n, Nat.le_succ _⟩
    · rw [List.mem_singleton.mp h]
      exact ⟨Nat.le_add_left 1 _, le_rfl⟩
  | askOnly n q =>
    rw [List.mem_singleton.mp h]
    exact ⟨Nat.le_add_left 1 _, le_rfl⟩

namespace Bounds

variable {φ χ : Phase} {T T' : Tables}

/-- Every order of the phase is one of another, whose ids include its own. -/
theorem mono (h : Bounds c φ T) (horders : ∀ o ∈ φ.orders, o ∈ χ.orders) (hused : φ.used ≤ χ.used) :
    Bounds c χ T where
  live id lo hlo howner := by
    obtain ⟨o, ho, hfacts⟩ := h.live id lo hlo howner
    exact ⟨o, horders o ho, hfacts⟩
  legible := h.legible
  linked := h.linked
  recorded cid r hr := by
    obtain ⟨n, hn, hcid⟩ := h.recorded cid r hr
    exact ⟨n, hn.trans hused, hcid⟩
  fills m hm hconn hfill := by
    obtain ⟨n, hn, hfacts⟩ := h.fills m hm hconn hfill
    exact ⟨n, hn.trans hused, hfacts⟩

/-- Fewer live orders, and the records of those that are left untouched. -/
theorem restrict (h : Bounds c φ T)
    (hlive : ∀ id lo, T'.live id = some lo → T.live id = some lo)
    (horders : ∀ id lo, T'.live id = some lo → lo.owner = c.conn → ∀ o ∈ φ.orders,
      lo.clientOrderId = utf8 (c.id o.1) → o ∈ χ.orders)
    (hrecord : ∀ id lo, T'.live id = some lo → lo.owner = c.conn →
      T'.record c.conn lo.clientOrderId = T.record c.conn lo.clientOrderId)
    (hrecorded : ∀ cid r, T'.record c.conn cid = some r → ∃ r', T.record c.conn cid = some r')
    (hused : φ.used ≤ χ.used)
    (hfills : ∀ m ∈ T'.sent, m.2.isFill = true → m ∈ T.sent) : Bounds c χ T' where
  live id lo hlo howner := by
    obtain ⟨o, ho, hcid, hfacts⟩ := h.live id lo (hlive id lo hlo) howner
    exact ⟨o, horders id lo hlo howner o ho hcid, hcid, hfacts⟩
  legible id lo hlo := h.legible id lo (hlive id lo hlo)
  linked id lo hlo howner := by
    rw [hrecord id lo hlo howner]
    exact h.linked id lo (hlive id lo hlo) howner
  recorded cid r hr := by
    obtain ⟨r', hr'⟩ := hrecorded cid r hr
    obtain ⟨n, hn, hcid⟩ := h.recorded cid r' hr'
    exact ⟨n, hn.trans hused, hcid⟩
  fills m hm hconn hfill := by
    obtain ⟨n, hn, hfacts⟩ := h.fills m (hfills m hm hfill) hconn hfill
    exact ⟨n, hn.trans hused, hfacts⟩

/-- Fewer live orders, all records untouched. -/
theorem shrink (h : Bounds c φ T) (hlive : ∀ id lo, T'.live id = some lo → T.live id = some lo)
    (hrecord : ∀ cid, T'.record c.conn cid = T.record c.conn cid)
    (hfills : ∀ m ∈ T'.sent, m.2.isFill = true → m ∈ T.sent) : Bounds c φ T' :=
  h.restrict hlive (fun _ _ _ _ _ ho _ => ho) (fun _ lo _ _ => hrecord lo.clientOrderId)
    (fun cid r hr => ⟨r, hrecord cid ▸ hr⟩) le_rfl hfills

/-- Two live orders of the maker with one id are one. -/
theorem unique (h : Bounds c φ T) {id id' : UInt64} {lo lo' : LiveOrder} (hlo : T.live id = some lo)
    (hlo' : T.live id' = some lo') (howner : lo.owner = c.conn) (howner' : lo'.owner = c.conn)
    (hcid : lo.clientOrderId = lo'.clientOrderId) : id = id' := by
  obtain ⟨r, hr, hid, -⟩ := h.linked id lo hlo howner
  obtain ⟨r', hr', hid', -⟩ := h.linked id' lo' hlo' howner'
  rw [hcid, hr', Option.some_inj] at hr
  rw [← hid, ← hid', hr]

/-- A leg of a trade. -/
theorem routeFill (h : Bounds c φ T) (id : UInt64) (p q : UInt32) :
    Bounds c φ (T.routeFill id p q) := by
  cases hl : T.live id with
  | none => rwa [Tables.routeFill_of_none hl]
  | some lo =>
    obtain ⟨hlive, hsent, hrecord⟩ := Tables.routeFill_spec (p := p) (q := q) hl
    -- what is live afterwards was live before, with the same names, side and price
    have hbefore : ∀ id' lo', (T.routeFill id p q).live id' = some lo' → ∃ lo₀,
        T.live id' = some lo₀ ∧ lo'.owner = lo₀.owner ∧ lo'.clientOrderId = lo₀.clientOrderId ∧
          lo'.side = lo₀.side ∧ lo'.priceTicks = lo₀.priceTicks ∧
          (id' = id → ¬ Tables.remainingAfter lo q = 0) := by
      intro id' lo' hlo'
      rw [hlive] at hlo'
      split at hlo'
      · next hid =>
        split at hlo'
        · cases hlo'
        · next hrem =>
          cases hlo'
          exact ⟨lo, hid ▸ hl, rfl, rfl, rfl, rfl, fun _ => hrem⟩
      · next hid => exact ⟨lo', hlo', rfl, rfl, rfl, rfl, fun h => absurd h hid⟩
    refine ⟨?_, ?_, ?_, ?_, ?_⟩
    · intro id' lo' hlo' howner
      obtain ⟨lo₀, hlo₀, ho, hc, hs, hp, -⟩ := hbefore id' lo' hlo'
      rw [hc, hs, hp]
      exact h.live id' lo₀ hlo₀ (ho ▸ howner)
    · intro id' lo' hlo' howner
      obtain ⟨lo₀, hlo₀, ho, -⟩ := hbefore id' lo' hlo'
      exact h.legible id' lo₀ hlo₀ (ho ▸ howner)
    · intro id' lo' hlo' howner
      obtain ⟨lo₀, hlo₀, ho, hc, -, -, hrem⟩ := hbefore id' lo' hlo'
      rw [ho] at howner
      obtain ⟨r, hr, hid, hst⟩ := h.linked id' lo₀ hlo₀ howner
      refine ⟨r, ?_, hid, hst⟩
      rw [hrecord, hc, if_neg, hr]
      -- its record is marked only if it is the order that was filled up
      rintro ⟨hzero, hconn, hcid⟩
      have hsame := h.unique hlo₀ hl howner hconn.symm hcid
      exact hrem hsame hzero
    · intro cid r hr
      rw [hrecord] at hr
      split at hr
      · obtain ⟨r₀, hr₀, -⟩ := Option.map_eq_some_iff.mp hr
        exact h.recorded cid r₀ hr₀
      · exact h.recorded cid r hr
    · intro m hm hconn hfill
      rw [hsent, List.mem_append, List.mem_singleton] at hm
      rcases hm with hm | rfl
      · exact h.fills m hm hconn hfill
      · obtain ⟨o, ho, hcid, -⟩ := h.live id lo hl hconn
        exact ⟨o.1, (Phase.orders_used ho).2, (Phase.orders_used ho).1, hcid⟩

theorem afterTrades (h : Bounds c φ T) (ts : List Trade) : Bounds c φ (T.afterTrades ts) := by
  induction ts generalizing T with
  | nil => exact h
  | cons t ts ih =>
    have hlast : Bounds c φ { T with lastTradeTicks := t.price, hasLastTrade := true } :=
      ⟨h.live, h.legible, h.linked, h.recorded, h.fills⟩
    exact ih ((hlast.routeFill _ _ _).routeFill _ _ _)

/-- A request that changes nothing is answered without a fill. -/
theorem quiet {v v' : Venue cap} {msgs : List Sent} (h : Bounds c φ v.tables)
    (live : v'.tables.byEngineId = v.tables.byEngineId)
    (record : ∀ conn cid, v'.tables.record conn cid = v.tables.record conn cid)
    (sent : v'.tables.sent = v.tables.sent ++ msgs) (about : ∀ m ∈ msgs, m.2.exchangeId? = none) :
    Bounds c φ v'.tables := by
  refine h.shrink (fun id lo hlo => ?_) (record c.conn) ?_
  · rwa [Tables.live, live] at hlo
  · intro m hm hfill
    rw [sent, List.mem_append] at hm
    rcases hm with hm | hm
    · exact hm
    · have hnone := about m hm
      obtain ⟨conn, m⟩ := m
      cases m <;> cases hnone <;> cases hfill

/-- Another client's order is entered. -/
theorem entered_others {v : Venue cap} (h : Bounds c φ v.tables) {conn : ConnId}
    (hconn : conn ≠ c.conn) (cid : Bytes) (side : OrderSide) (p q : UInt32) :
    Bounds c φ (v.entered conn cid side p q) := by
  have hlive : ∀ id lo, (v.entered conn cid side p q).live id = some lo → lo.owner = c.conn →
      v.tables.live id = some lo := by
    intro id lo hlo howner
    rw [entered_live] at hlo
    split at hlo
    · cases hlo
      exact absurd howner hconn
    · exact hlo
  have hrecord : ∀ cid', (v.entered conn cid side p q).record c.conn cid' =
      v.tables.record c.conn cid' := by
    intro cid'
    rw [entered_record, if_neg fun hc => hconn hc.1.symm]
  refine ⟨fun id lo hlo ho => h.live id lo (hlive id lo hlo ho) ho,
    fun id lo hlo ho => h.legible id lo (hlive id lo hlo ho) ho, fun id lo hlo ho => ?_,
    fun cid' r hr => ?_, fun m hm hm' hfill => ?_⟩
  · rw [hrecord]
    exact h.linked id lo (hlive id lo hlo ho) ho
  · rw [hrecord] at hr
    exact h.recorded cid' r hr
  · rw [entered_sent, List.mem_append, List.mem_singleton] at hm
    rcases hm with hm | rfl
    · exact h.fills m hm hm' hfill
    · cases hfill

/-- Another client's call leaves the maker's orders alone, except that it may fill them. -/
theorem others {v v' : Venue cap} {ev : Event} (h : Bounds c φ v.tables) (hsound : v.book.Sound)
    (hev : ByOthers c.conn ev) (hv : v.handle build ev = .ok v') : Bounds c φ v'.tables := by
  cases handled_ok hv with
  | quiet result msgs _ _ _ live record sent about =>
    cases result
    exact h.quiet live record sent about
  | @accept conn payload cid side p q _ accepts result =>
    obtain ⟨a, hrep, hwf⟩ := hsound
    obtain ⟨ts, a', -, -, hT, -⟩ := submit_spec hrep hwf result.symm
    rw [hT]
    exact (h.entered_others hev cid side p q).afterTrades ts
  | @cancel conn payload cid r _ isCancel hrecord _ result =>
    obtain ⟨book, -, hv'⟩ := bind_eq_ok.mp result.symm
    cases hv'
    have hconn : conn ≠ c.conn := hev
    refine h.shrink (fun id lo hlo => ?_) (fun cid' => ?_) (fun m hm hfill => ?_)
    · rw [cancelled_live] at hlo
      split at hlo
      · cases hlo
      · exact hlo
    · rw [cancelled_record, if_neg fun hc => hconn hc.1.symm]
    · rw [cancelled_sent, List.mem_append, List.mem_singleton] at hm
      rcases hm with hm | rfl
      · exact hm
      · cases hfill
  | @drop conn _ result =>
    obtain ⟨v₁, hv₁, hv'⟩ := bind_eq_ok.mp result.symm
    cases hv'
    have hconn : c.conn ≠ conn := fun he => hev he.symm
    obtain ⟨hlive, hbyConn, hsent⟩ := dropOwned_tables hv₁
    refine h.shrink hlive (fun cid' => ?_) (fun m hm _ => hsent ▸ hm)
    rw [Tables.record, lookup_erase_ite, if_neg hconn, hbyConn]
    rfl

end Bounds

/-! ## The maker's requests -/

section Requests

variable {φ χ : Phase} {v v' : Venue cap} {k : Nat} {side : OrderSide} {price : Price} {t : UtcTime}

/-- What the venue recovers of a new order. -/
theorem parseInbound_newOrderRequest (id : List Char) (side : OrderSide) (price : Price)
    (t : UtcTime) :
    parseInbound ((Request.newOrder id side price).payload t) =
      if allLegible id then
        ⟨.newOrder, some (utf8 id), some SYMBOL.bytes, some side, price.ticks?, some 10, none⟩
      else .failed .json := by
  rw [Request.payload, parseInbound_newOrderDict, Price.numeral, parseDecimalToTicks_signed,
    parseUint32_int]
  rfl

theorem parseInbound_cancelRequest (id : List Char) (t : UtcTime) :
    parseInbound ((Request.cancel id).payload t) =
      if allLegible id then
        ⟨.cancel, some (utf8 id), none, none, none, none, none⟩
      else .failed .json := parseInbound_cancelDict id t

/-- The venue's call for a new order. -/
theorem handle_newOrderRequest (id : List Char) :
    v.handle build (.line c.conn ((Request.newOrder id side price).payload t)) =
      if allLegible id then
        v.handleNewOrder build c.conn
          ⟨.newOrder, some (utf8 id), some SYMBOL.bytes, some side, price.ticks?, some 10, none⟩
      else .ok (v.send c.conn (.reject [] .malformed)) := by
  rw [Venue.handle, Venue.handleLine, parseInbound_newOrderRequest]
  split <;> rfl

/-- The venue's call for a cancel. -/
theorem handle_cancelRequest (id : List Char) :
    v.handle build (.line c.conn ((Request.cancel id).payload t)) =
      if allLegible id then
        v.handleCancel build c.conn ⟨.cancel, some (utf8 id), none, none, none, none, none⟩
      else .ok (v.send c.conn (.reject [] .malformed)) := by
  rw [Venue.handle, Venue.handleLine, parseInbound_cancelRequest]
  split <;> rfl

/-- The maker's next order is entered. -/
theorem Bounds.entered_own (h : Bounds c φ v.tables)
    (horders : χ.orders = φ.orders ++ [(k, side, price)]) (hused : χ.used = k) (hk : φ.used < k)
    (hleg : ∀ ch ∈ c.runId, isLegible ch = true) {p : UInt32} (hp : price.ticks? = some p)
    (q : UInt32) : Bounds c χ (v.entered c.conn (utf8 (c.id k)) side p q) := by
  have hle : φ.used ≤ χ.used := by omega
  refine ⟨fun id lo hlo ho => ?_, fun _ _ _ _ => hleg, fun id lo hlo ho => ?_,
    fun cid r hr => ?_, fun m hm hconn hfill => ?_⟩
  · rw [entered_live] at hlo
    split at hlo
    · cases hlo
      exact ⟨(k, side, price), by simp [horders], rfl, rfl, hp⟩
    · obtain ⟨o, hmem, hfacts⟩ := h.live id lo hlo ho
      exact ⟨o, by simp [horders, hmem], hfacts⟩
  · rw [entered_live] at hlo
    split at hlo
    · next hid =>
      cases hlo
      exact ⟨_, by rw [entered_record, if_pos ⟨rfl, rfl⟩], hid.symm, rfl⟩
    · -- an order that was live before has another number
      obtain ⟨o, hmem, hcid, -⟩ := h.live id lo hlo ho
      have hne : ¬(c.conn = c.conn ∧ lo.clientOrderId = utf8 (c.id k)) := by
        rintro ⟨-, heq⟩
        have hnum := c.id_inj (hcid.symm.trans heq)
        have := (Phase.orders_used hmem).2
        omega
      rw [entered_record, if_neg hne]
      exact h.linked id lo hlo ho
  · rw [entered_record] at hr
    split at hr
    · next hc => exact ⟨k, hused.ge, hc.2⟩
    · obtain ⟨n, hn, hcid⟩ := h.recorded cid r hr
      exact ⟨n, hn.trans hle, hcid⟩
  · rw [entered_sent, List.mem_append, List.mem_singleton] at hm
    rcases hm with hm | rfl
    · obtain ⟨n, hn, hfacts⟩ := h.fills m hm hconn hfill
      exact ⟨n, hn.trans hle, hfacts⟩
    · cases hfill

/-- A new order of the maker, accepted or not. -/
theorem Bounds.newOrder (h : Bounds c φ v.tables) (hsound : v.book.Sound)
    (horders : χ.orders = φ.orders ++ [(k, side, price)]) (hused : χ.used = k) (hk : φ.used < k)
    (hv : v.handle build (.line c.conn ((Request.newOrder (c.id k) side price).payload t)) =
      .ok v') : Bounds c χ v'.tables := by
  have hparse := parseInbound_newOrderRequest (c.id k) side price t
  cases handled_ok hv with
  | quiet result msgs _ _ _ live record sent about =>
    cases result
    exact (h.quiet live record sent about).mono (fun o ho => by simp [horders, ho]) (by omega)
  | @accept _ _ cid side' p q _ accepts result =>
    obtain ⟨hnew, -, -, -, -⟩ := accepts
    obtain ⟨readable, -, names, -, onSide, atPrice, -⟩ := hnew
    rw [hparse] at readable names onSide atPrice
    by_cases hleg : allLegible (c.id k) = true
    · rw [if_pos hleg] at names onSide atPrice
      cases names
      cases onSide
      obtain ⟨a, hrep, hwf⟩ := hsound
      obtain ⟨ts, a', -, -, hT, -⟩ := submit_spec hrep hwf result.symm
      rw [hT]
      have hrun := (c.isLegible_id k).mp (allLegible_iff.mp hleg)
      exact (h.entered_own horders hused hk hrun atPrice q).afterTrades ts
    · rw [if_neg hleg] at readable
      cases readable
  | cancel isCancel _ _ _ =>
    have htype := isCancel.type
    rw [hparse] at htype
    split at htype <;> cases htype

/-- A cancel of the maker, whatever the venue answers. -/
theorem Bounds.cancel (h : Bounds c φ v.tables) (horders : ∀ o ∈ φ.orders, o.1 ≠ k → o ∈ χ.orders)
    (hused : φ.used ≤ χ.used)
    (hv : v.handle build (.line c.conn ((Request.cancel (c.id k)).payload t)) = .ok v') :
    Bounds c χ v'.tables := by
  -- it is enough that nothing live bears the id any more
  have hnarrow : ∀ T' : Tables, (∀ id lo, T'.live id = some lo → v.tables.live id = some lo) →
      (∀ id lo, T'.live id = some lo → lo.owner = c.conn →
        lo.clientOrderId ≠ utf8 (c.id k)) →
      (∀ cid, cid ≠ utf8 (c.id k) → T'.record c.conn cid = v.tables.record c.conn cid) →
      (∀ cid r, T'.record c.conn cid = some r → ∃ r', v.tables.record c.conn cid = some r') →
      (∀ m ∈ T'.sent, m.2.isFill = true → m ∈ v.tables.sent) → Bounds c χ T' := by
    intro T' hlive hne hrecord hrecorded hfills
    refine h.restrict hlive (fun id lo hlo ho o hmem hcid => horders o hmem ?_)
      (fun id lo hlo ho => hrecord _ (hne id lo hlo ho)) hrecorded hused hfills
    rintro rfl
    exact hne id lo hlo ho hcid
  have hrefused : ∀ {m : Outbound}, m.isFill = false →
      (∀ id lo, v.tables.live id = some lo → lo.owner = c.conn →
        lo.clientOrderId ≠ utf8 (c.id k)) → Bounds c χ (v.send c.conn m).tables := by
    intro m hm hne
    refine hnarrow _ (fun _ _ hlo => hlo) hne (fun _ _ => rfl) (fun _ r hr => ⟨r, hr⟩) ?_
    intro x hx hfill
    rcases List.mem_append.mp hx with hx | hx
    · exact hx
    · rw [List.mem_singleton.mp hx, hm] at hfill
      cases hfill
  rw [handle_cancelRequest] at hv
  by_cases hleg : allLegible (c.id k) = true
  · rw [if_pos hleg, Venue.handleCancel_eq] at hv
    have hlinked : ∀ id lo, v.tables.live id = some lo → lo.owner = c.conn →
        lo.clientOrderId = utf8 (c.id k) → ∃ r, v.tables.record c.conn (utf8 (c.id k)) = some r ∧
          r.engineId = id ∧ r.state = .resting :=
      fun id lo hlo ho hcid => hcid ▸ h.linked id lo hlo ho
    cases hr : v.tables.record c.conn (utf8 (c.id k)) with
    | none =>
      simp only [hr] at hv
      cases hv
      refine hrefused rfl fun id lo hlo ho hcid => ?_
      obtain ⟨r, hr', -⟩ := hlinked id lo hlo ho hcid
      rw [hr] at hr'
      cases hr'
    | some r =>
      have hstate : ∀ st, r.state = st → st ≠ .resting → ∀ id lo, v.tables.live id = some lo →
          lo.owner = c.conn → lo.clientOrderId ≠ utf8 (c.id k) := by
        intro st hst hne id lo hlo ho hcid
        obtain ⟨r', hr', -, hresting⟩ := hlinked id lo hlo ho hcid
        rw [hr] at hr'
        cases hr'
        exact hne (hst.symm.trans hresting)
      simp only [hr] at hv
      cases hst : r.state with
      | filled =>
        simp only [hst] at hv
        cases hv
        exact hrefused rfl (hstate _ hst (by decide))
      | cancelled =>
        simp only [hst] at hv
        cases hv
        exact hrefused rfl (hstate _ hst (by decide))
      | resting =>
        simp only [hst] at hv
        obtain ⟨book, -, hv⟩ := bind_eq_ok.mp hv
        cases hv
        have hlive : ∀ id lo, (v.cancelled c.conn (utf8 (c.id k)) r book).tables.live id = some lo →
            id ≠ r.engineId ∧ v.tables.live id = some lo := by
          intro id lo hlo
          rw [cancelled_live] at hlo
          split at hlo
          · cases hlo
          · next hid => exact ⟨hid, hlo⟩
        refine hnarrow _ (fun id lo hlo => (hlive id lo hlo).2) (fun id lo hlo ho hcid => ?_)
          (fun cid hcid => ?_) (fun cid r' hr' => ?_) (fun m hm hfill => ?_)
        · obtain ⟨hid, hlo⟩ := hlive id lo hlo
          obtain ⟨r', hr', hid', -⟩ := hlinked id lo hlo ho hcid
          rw [hr] at hr'
          cases hr'
          exact hid hid'.symm
        · rw [cancelled_record, if_neg fun hc => hcid hc.2]
        · rw [cancelled_record] at hr'
          split at hr'
          · next hc => exact ⟨r, hc.2 ▸ hr⟩
          · exact ⟨r', hr'⟩
        · rw [cancelled_sent, List.mem_append, List.mem_singleton] at hm
          rcases hm with hm | rfl
          · exact hm
          · cases hfill
  · rw [if_neg hleg] at hv
    cases hv
    exact hrefused rfl fun id lo hlo ho =>
      absurd (allLegible_iff.mpr ((c.isLegible_id k).mpr (h.legible id lo hlo ho))) hleg

/-- Neither a self match nor a duplicate id. -/
def Harmless (m : Outbound) : Prop :=
  ∀ cid, m ≠ .reject cid .selfMatch ∧ m ≠ .reject cid .duplicateClientOrderId

theorem harmless_of_isFill {m : Outbound} (h : m.isFill = true) : Harmless m := by
  intro cid
  constructor <;> rintro rfl <;> cases h

theorem harmless_malformed (hsent : v.tables.sent = []) (conn : ConnId) :
    ∀ m ∈ (v.send conn (.reject [] .malformed)).tables.sent, Harmless m.2 := by
  intro m hm cid
  have hm : m ∈ v.tables.sent ++ [(conn, .reject [] .malformed)] := hm
  rw [hsent, List.nil_append, List.mem_singleton] at hm
  rw [hm]
  exact ⟨fun h => (by cases h), fun h => (by cases h)⟩

theorem exists_live_of_wouldSelfCross {T : Tables} {conn : ConnId} {p : UInt32}
    (h : T.wouldSelfCross conn side p = true) : ∃ id lo, T.live id = some lo ∧ lo.owner = conn ∧
      ((side = .buy ∧ lo.side = .sell ∧ lo.priceTicks ≤ p) ∨
        (side = .sell ∧ lo.side = .buy ∧ p ≤ lo.priceTicks)) := by
  obtain ⟨e, he, hcross⟩ := List.any_eq_true.mp h
  rw [decide_eq_true_eq] at hcross
  exact ⟨e.1, e.2, AList.mem_lookup_iff.mpr he, hcross.1, hcross.2⟩

theorem Price.ticks?_lt {x y : Price} {p q : UInt32} (hp : x.ticks? = some p)
    (hq : y.ticks? = some q) (h : x.value < y.value) : p < q := by
  have hp := (Price.ticks?_eq_some.mp hp).2
  have hq := (Price.ticks?_eq_some.mp hq).2
  rw [UInt32.lt_iff_toNat_lt]
  omega

/-- An order under a new id that crosses none of the phase's is not refused for that. -/
theorem Bounds.newOrder_harmless (h : Bounds c φ v.tables) (hsound : v.book.Sound)
    (hsent : v.tables.sent = []) (hk : φ.used < k)
    (hcross : ∀ o ∈ φ.orders, o.2.1 = .buy ∧ side = .sell ∧ o.2.2.value < price.value)
    (hv : v.handle build (.line c.conn ((Request.newOrder (c.id k) side price).payload t)) =
      .ok v') : ∀ m ∈ v'.tables.sent, Harmless m.2 := by
  rw [handle_newOrderRequest] at hv
  by_cases hleg : allLegible (c.id k) = true
  · rw [if_pos hleg] at hv
    rintro ⟨conn, m⟩ hm cid
    constructor
    · rintro rfl
      obtain ⟨side', p, hside, hp, hself⟩ := (newOrder_refused hsound hsent hv hm).2 rfl
      cases hside
      obtain ⟨id, lo, hlo, howner, hcases⟩ := exists_live_of_wouldSelfCross hself
      obtain ⟨o, ho, -, hloSide, hloPrice⟩ := h.live id lo hlo howner
      obtain ⟨hbuy, rfl, hlt⟩ := hcross o ho
      rcases hcases with ⟨hside, -⟩ | ⟨-, -, hle⟩
      · cases hside
      · exact UInt32.not_lt.mpr hle (Price.ticks?_lt hloPrice hp hlt)
    · rintro rfl
      obtain ⟨cid', r, hcid, hr⟩ := (newOrder_refused hsound hsent hv hm).1 rfl
      cases hcid
      obtain ⟨n, hn, heq⟩ := h.recorded _ r hr
      have := c.id_inj heq
      omega
  · rw [if_neg hleg] at hv
    cases hv
    exact harmless_malformed hsent c.conn

/-- A cancel is never answered with a REJECT. -/
theorem handleCancel_sent {m : InboundMessage} {conn : ConnId} (hsent : v.tables.sent = [])
    (hv : v.handleCancel build conn m = .ok v') :
    ∀ x ∈ v'.tables.sent, ∀ cid reason, x.2 ≠ .reject cid reason := by
  have hsend : ∀ (w : Venue cap) cid why,
      Except.ok (w.send conn (.cancelReject cid why)) = (.ok v' : Except Fault (Venue cap)) →
      w.tables.sent = [] → ∀ x ∈ v'.tables.sent, ∀ cid reason, x.2 ≠ .reject cid reason := by
    intro w cid why hv hw x hx cid' reason
    cases hv
    have hx : x ∈ w.tables.sent ++ [(conn, .cancelReject cid why)] := hx
    rw [hw, List.nil_append, List.mem_singleton] at hx
    rw [hx]
    rintro ⟨⟩
  rw [Venue.handleCancel_eq] at hv
  split at hv
  · exact hsend v _ _ hv hsent
  · split at hv
    · exact hsend v _ _ hv hsent
    · split at hv
      · exact hsend v _ _ hv hsent
      · exact hsend v _ _ hv hsent
      · obtain ⟨book, -, hv⟩ := bind_eq_ok.mp hv
        cases hv
        intro x hx cid reason
        rw [cancelled_sent, hsent, List.nil_append, List.mem_singleton] at hx
        rw [hx]
        rintro ⟨⟩

theorem cancel_harmless (hsent : v.tables.sent = []) {id : List Char}
    (hv : v.handle build (.line c.conn ((Request.cancel id).payload t)) = .ok v') :
    ∀ m ∈ v'.tables.sent, Harmless m.2 := by
  rw [handle_cancelRequest] at hv
  by_cases hleg : allLegible id = true
  · rw [if_pos hleg] at hv
    intro m hm cid
    have hne := handleCancel_sent hsent hv m hm cid
    exact ⟨hne _, hne _⟩
  · rw [if_neg hleg] at hv
    cases hv
    exact harmless_malformed hsent c.conn

/-- Of what others' calls send, the maker gets fills only. -/
theorem others_sent {ev : Event} (hsound : v.book.Sound) (hsent : v.tables.sent = [])
    (hev : ByOthers c.conn ev) (hv : v.handle build ev = .ok v') :
    ∀ m ∈ v'.tables.sent, m.1 = c.conn → m.2.isFill = true := by
  cases handled_ok hv with
  | @quiet conn payload _ _ result msgs _ _ _ _ _ sent _ reply =>
    cases result
    intro m hm hconn
    rw [sent, hsent, List.nil_append] at hm
    have hne : conn ≠ c.conn := hev
    cases reply with
    | heartbeat => cases hm
    | malformed => exact absurd (by rw [← hconn, List.mem_singleton.mp hm]) hne
    | newOrder => exact absurd (by rw [← hconn, List.mem_singleton.mp hm]) hne
    | cancel => exact absurd (by rw [← hconn, List.mem_singleton.mp hm]) hne
  | @accept conn payload cid side p q _ accepts result =>
    obtain ⟨fills, hmsgs, hf⟩ := submit_sent hsound hsent result.symm
    intro m hm hconn
    rw [hmsgs] at hm
    rcases List.mem_cons.mp hm with rfl | hm
    · exact absurd hconn hev
    · exact hf m hm
  | @cancel conn payload cid r _ isCancel hrecord _ result =>
    obtain ⟨book, -, hv'⟩ := bind_eq_ok.mp result.symm
    cases hv'
    intro m hm hconn
    rw [cancelled_sent, hsent, List.nil_append, List.mem_singleton] at hm
    rw [hm] at hconn
    exact absurd hconn hev
  | @drop conn _ result =>
    obtain ⟨v₁, hv₁, hv'⟩ := bind_eq_ok.mp result.symm
    cases hv'
    intro m hm
    have hm : m ∈ v₁.tables.sent := hm
    rw [(dropOwned_tables hv₁).2.2, hsent] at hm
    cases hm

/-- The pair of a phase is among those made. -/
def Phase.Known (c : Client) (pairs : List Pair) : Phase → Prop
  | .clear _ => True
  | .bidOut n q => ⟨c.id (n + 1), c.id (n + 2), q⟩ ∈ pairs
  | .both n q => ⟨c.id (n + 1), c.id (n + 2), q⟩ ∈ pairs
  | .askOnly n q => ⟨c.id (n + 1), c.id (n + 2), q⟩ ∈ pairs

theorem Phase.Next.known {pairs : List Pair} {r : Request} (h : Phase.Next c pairs φ r χ)
    (hφ : φ.Known c pairs) : χ.Known c pairs := by
  cases h with
  | bid n q made => exact made
  | ask n q => exact hφ
  | cancelBid n q => exact hφ
  | cancelAsk n q => exact trivial

/-- The venue takes the maker's next request. -/
theorem Bounds.next {pairs : List Pair} {r : Request} (h : Bounds c φ v.tables)
    (hsound : v.book.Sound) (hsent : v.tables.sent = []) (hr : Phase.Next c pairs φ r χ)
    (hknown : φ.Known c pairs) (hordered : ∀ p ∈ pairs, p.quote.bid.value < p.quote.ask.value)
    (hv : v.handle build (.line c.conn (r.payload t)) = .ok v') :
    Bounds c χ v'.tables ∧ ∀ m ∈ v'.tables.sent, Harmless m.2 := by
  cases hr with
  | bid n q made =>
    refine ⟨h.newOrder hsound rfl rfl (Nat.lt_succ_self n) hv, ?_⟩
    exact h.newOrder_harmless hsound hsent (Nat.lt_succ_self n) (fun o ho => by cases ho) hv
  | ask n q =>
    refine ⟨h.newOrder hsound rfl rfl (Nat.lt_succ_self (n + 1)) hv, ?_⟩
    refine h.newOrder_harmless hsound hsent (Nat.lt_succ_self (n + 1)) (fun o ho => ?_) hv
    rw [List.mem_singleton.mp ho]
    exact ⟨rfl, rfl, hordered _ hknown⟩
  | cancelBid n q =>
    refine ⟨h.cancel (fun o ho hne => ?_) le_rfl hv, cancel_harmless hsent hv⟩
    rcases List.mem_cons.mp ho with rfl | ho
    · exact absurd rfl hne
    · exact ho
  | cancelAsk n q =>
    refine ⟨h.cancel (fun o ho hne => ?_) le_rfl hv, cancel_harmless hsent hv⟩
    rw [List.mem_singleton.mp ho] at hne
    exact absurd rfl hne

end Requests

/-! ## Runs -/

/-- Where the maker stands in its tick, and the phase its requests lead to. -/
inductive AtPhase (c : Client) : Pc → Nat → List (List Char) → Phase → Prop
  | fresh : AtPhase c .asleep 0 [] (.clear 0)
  | quoted {quote : Quote} (ordered : quote.bid.value < quote.ask.value) :
      AtPhase c (.cancelling quote []) 0 [] (.clear 0)
  | rested (n : Nat) (q : Quote) :
      AtPhase c .asleep (n + 2) [c.id (n + 1), c.id (n + 2)] (.both n q)
  | cancelBid {quote : Quote} (n : Nat) (q : Quote) (ordered : quote.bid.value < quote.ask.value) :
      AtPhase c (.cancelling quote [c.id (n + 1), c.id (n + 2)]) (n + 2)
        [c.id (n + 1), c.id (n + 2)] (.both n q)
  | cancelAsk {quote : Quote} (n : Nat) (q : Quote) (ordered : quote.bid.value < quote.ask.value) :
      AtPhase c (.cancelling quote [c.id (n + 2)]) (n + 2) [c.id (n + 1), c.id (n + 2)]
        (.askOnly n q)
  | cleared {quote : Quote} (n : Nat) (ordered : quote.bid.value < quote.ask.value) :
      AtPhase c (.cancelling quote []) (n + 2) [c.id (n + 1), c.id (n + 2)] (.clear (n + 2))
  | asking (n : Nat) (q : Quote) (resting : List (List Char)) :
      AtPhase c (.asking ⟨c.id (n + 1), c.id (n + 2), q⟩) (n + 2) resting (.bidOut n q)

/-- The maker has drawn the ids of its phase. -/
theorem AtPhase.used {pc : Pc} {seq : Nat} {resting : List (List Char)} {ψ : Phase}
    (h : AtPhase c pc seq resting ψ) : ψ.used ≤ seq := by
  cases h <;> simp [Phase.used]

theorem Phase.Path.used_le {pairs : List Pair} {φ ψ : Phase} {rs : List Request}
    (h : Phase.Path c pairs φ rs ψ) : φ.used ≤ ψ.used := by
  induction h with
  | nil φ => exact le_rfl
  | cons next rest ih =>
    refine le_trans ?_ ih
    cases next <;> simp [Phase.used]

theorem Phase.Known.mono {pairs : List Pair} {φ : Phase} (h : φ.Known c pairs) (p : Pair) :
    φ.Known c (pairs ++ [p]) := by
  cases φ with
  | clear n => exact trivial
  | bidOut n q => exact List.mem_append_left _ h
  | both n q => exact List.mem_append_left _ h
  | askOnly n q => exact List.mem_append_left _ h

/-- A message read changes the position, and nothing else of the maker. -/
theorem Maker.receive_spec {M M' : Maker} {payload : Bytes} (h : M.receive payload = some M') :
    ∃ position, M' = { M with position := position } := by
  have hsame : ∀ {M' : Maker}, some M = some M' →
      ∃ position, M' = { M with position := position } := by
    rintro M' ⟨⟩
    exact ⟨M.position, rfl⟩
  obtain ⟨msg, -, h⟩ := Option.bind_eq_some_iff.mp h
  split at h
  · obtain ⟨cid, -, h⟩ := Option.bind_eq_some_iff.mp h
    split at h
    · split at h
      · exact hsame h
      · split at h
        · cases h
          exact ⟨_, rfl⟩
        · cases h
    · exact hsame h
  · exact hsame h

/-- Between the venue's phase and the maker's lie the requests under way. -/
structure Safe (build : Build) (softCap : Nat) (c : Client) (W : World cap) : Prop where
  run : ∃ events, session build cap softCap events = .ok W.session
  ordered : ∀ p ∈ W.maker.pairs, p.quote.bid.value < p.quote.ask.value
  path : ∃ φ ψ, Bounds c φ W.session.venue.cleared.tables ∧ φ.Known c W.maker.pairs ∧
    Phase.Path c W.maker.pairs φ (W.toVenue.map Prod.fst) ψ ∧
    AtPhase c W.maker.pc W.maker.seq W.maker.resting ψ
  harmless : ∀ m ∈ W.session.messages, m.1 = c.conn → Harmless m.2
  fills : ∀ m ∈ W.session.messages, m.1 = c.conn → m.2.isFill = true →
    ∃ n ≤ W.maker.seq, 1 ≤ n ∧ m.2.clientOrderId = utf8 (c.id n)

section Steps

variable {softCap : Nat} {W W' : World cap}

theorem Bounds.cleared {φ : Phase} {v : Venue cap} (h : Bounds c φ v.tables) :
    Bounds c φ v.cleared.tables :=
  ⟨h.live, h.legible, h.linked, h.recorded, fun m hm => by cases hm⟩

/-- The maker moves and sends a request. -/
theorem Safe.sent (h : Safe build softCap c W) {M : Maker} {r : Request} (t : UtcTime)
    (pairs : List Pair) (hpairs : M.pairs = W.maker.pairs ++ pairs)
    (hordered : ∀ p ∈ pairs, p.quote.bid.value < p.quote.ask.value) (hseq : W.maker.seq ≤ M.seq)
    (hpath : ∀ φ ψ, φ.Known c W.maker.pairs →
      Phase.Path c W.maker.pairs φ (W.toVenue.map Prod.fst) ψ →
      AtPhase c W.maker.pc W.maker.seq W.maker.resting ψ → φ.Known c M.pairs ∧
        ∃ χ, Phase.Path c M.pairs φ (W.toVenue.map Prod.fst ++ [r]) χ ∧
          AtPhase c M.pc M.seq M.resting χ) : Safe build softCap c (W.sent M r t) := by
  obtain ⟨φ, ψ, hbounds, hknown, hp, hat⟩ := h.path
  obtain ⟨hknown', χ, hp', hat'⟩ := hpath φ ψ hknown hp hat
  refine ⟨h.run, ?_, ⟨φ, χ, hbounds, hknown', ?_, hat'⟩, h.harmless, fun m hm hc hf => ?_⟩
  · show ∀ p ∈ M.pairs, _
    rw [hpairs]
    exact List.forall_mem_append.mpr ⟨h.ordered, hordered⟩
  · rw [World.sent, List.map_append]
    exact hp'
  · obtain ⟨n, hn, hfacts⟩ := h.fills m hm hc hf
    exact ⟨n, hn.trans hseq, hfacts⟩

/-- The venue makes a call. -/
theorem Safe.called (h : Safe build softCap c W) {ev : Event} {s : Session cap}
    (hstep : W.session.step build ev = .ok s) {toVenue : List (Request × UtcTime)}
    {toMaker : List Parcel}
    (hcall : ∀ φ ψ v', W.session.venue.cleared.handle build ev = .ok v' →
      W.session.venue.cleared.book.Sound → Bounds c φ W.session.venue.cleared.tables →
      φ.Known c W.maker.pairs → Phase.Path c W.maker.pairs φ (W.toVenue.map Prod.fst) ψ →
      ∃ χ, Bounds c χ v'.tables ∧ χ.Known c W.maker.pairs ∧
        Phase.Path c W.maker.pairs χ (toVenue.map Prod.fst) ψ ∧
        ∀ m ∈ v'.tables.sent, m.1 = c.conn → Harmless m.2) :
    Safe build softCap c { W with session := s, toVenue := toVenue, toMaker := toMaker } := by
  obtain ⟨events, hrun⟩ := h.run
  obtain ⟨φ, ψ, hbounds, hknown, hp, hat⟩ := h.path
  obtain ⟨v', hv', rfl⟩ := Session.step_eq_ok.mp hstep
  obtain ⟨hsound, -⟩ := session_size hrun
  obtain ⟨χ, hbounds', hknown', hp', hsent⟩ := hcall φ ψ v' hv' hsound hbounds hknown hp
  refine ⟨⟨_, session_snoc hrun hstep⟩, h.ordered, ⟨χ, ψ, hbounds'.cleared, hknown', hp', hat⟩,
    ?_, ?_⟩
  · rw [Session.messages_concat]
    exact List.forall_mem_append.mpr ⟨h.harmless, hsent⟩
  · rw [Session.messages_concat]
    refine List.forall_mem_append.mpr ⟨h.fills, fun m hm hc hf => ?_⟩
    obtain ⟨n, hn, hfacts⟩ := hbounds'.fills m hm hc hf
    exact ⟨n, hn.trans (hp'.used_le.trans hat.used), hfacts⟩

theorem Safe.step (h : Safe build softCap c W) (hstep : Step build c W W') :
    Safe build softCap c W' := by
  cases hstep with
  | quote fairValue pc =>
    obtain ⟨φ, ψ, hbounds, hknown, hp, hat⟩ := h.path
    refine ⟨h.run, h.ordered, ⟨φ, ψ, hbounds, hknown, hp, ?_⟩, h.harmless, h.fills⟩
    have hlt := computeQuote_lt fairValue W.maker.position.inventory
    unfold Maker.quoted
    dsimp only
    rw [pc] at hat
    generalize W.maker.seq = seq at hat ⊢
    generalize W.maker.resting = resting at hat ⊢
    cases hat with
    | fresh => exact .quoted hlt
    | rested n q => exact .cancelBid n q hlt
  | @cancel quote oid left t pc =>
    refine h.sent t [] (List.append_nil _).symm (fun p hp => by cases hp) le_rfl
      fun φ ψ hknown hp hat => ⟨hknown, ?_⟩
    rw [pc] at hat
    unfold Maker.cancelled
    dsimp only
    generalize W.maker.seq = seq at hat ⊢
    generalize W.maker.resting = resting at hat ⊢
    cases hat with
    | cancelBid n q hlt => exact ⟨_, hp.snoc (.cancelBid n q), .cancelAsk n q hlt⟩
    | cancelAsk n q hlt => exact ⟨_, hp.snoc (.cancelAsk n q), .cleared n hlt⟩
  | @bid quote t pc =>
    obtain ⟨-, ψ₀, -, -, -, hat₀⟩ := h.path
    have hlt : quote.bid.value < quote.ask.value := by
      rw [pc] at hat₀
      generalize W.maker.seq = seq at hat₀
      generalize W.maker.resting = resting at hat₀
      cases hat₀ with
      | quoted hlt => exact hlt
      | cleared n hlt => exact hlt
    refine h.sent t [W.maker.nextPair c quote] rfl
      (fun p hp => by rw [List.mem_singleton.mp hp]; exact hlt) (Nat.le_add_right _ 2)
      fun φ ψ hknown hp hat => ⟨hknown.mono _, ?_⟩
    rw [pc] at hat
    have hp' := hp.mono (W.maker.nextPair c quote)
    have hmade : W.maker.nextPair c quote ∈ W.maker.pairs ++ [W.maker.nextPair c quote] :=
      List.mem_append_right _ (List.mem_singleton_self _)
    have hclear : ψ = .clear W.maker.seq := by
      generalize W.maker.seq = seq at hat ⊢
      generalize W.maker.resting = resting at hat
      cases hat <;> rfl
    rw [hclear] at hp'
    exact ⟨_, hp'.snoc (.bid W.maker.seq quote hmade), .asking W.maker.seq quote W.maker.resting⟩
  | @ask pair t pc =>
    refine h.sent t [] (List.append_nil _).symm (fun p hp => by cases hp) le_rfl
      fun φ ψ hknown hp hat => ⟨hknown, ?_⟩
    rw [pc] at hat
    unfold Maker.asked
    dsimp only
    generalize W.maker.seq = seq at hat ⊢
    generalize W.maker.resting = resting at hat
    cases hat with
    | asking n q => exact ⟨_, hp.snoc (.ask n q), .rested n q⟩
  | @take r t rest s ps front call replies =>
    refine h.called call fun φ ψ v' hv' hsound hbounds hknown hp => ?_
    rw [front, List.map_cons] at hp
    cases hp with
    | cons next hrest =>
      obtain ⟨hbounds', hharmless⟩ := hbounds.next hsound rfl next hknown h.ordered hv'
      exact ⟨_, hbounds', next.known hknown, hrest, fun m hm _ => hharmless m hm⟩
  | @others ev s ps byOthers call replies =>
    refine h.called call fun φ ψ v' hv' hsound hbounds hknown hp => ?_
    refine ⟨φ, hbounds.others hsound byOthers hv', hknown, hp, fun m hm hc => ?_⟩
    exact harmless_of_isFill (others_sent hsound rfl byOthers hv' m hm hc)
  | broadcast p noReply => exact ⟨h.run, h.ordered, h.path, h.harmless, h.fills⟩
  | deliver front handled =>
    obtain ⟨position, rfl⟩ := Maker.receive_spec handled
    exact ⟨h.run, h.ordered, h.path, h.harmless, h.fills⟩

theorem Safe.start {v : Venue cap} (hv : Venue.new cap softCap = .ok v) :
    Safe build softCap c (World.start v) := by
  have htables : v.tables = ⟨false, 0, ∅, ∅, []⟩ := by
    obtain ⟨b, -, hv⟩ := bind_eq_ok.mp hv
    cases hv
    rfl
  refine ⟨⟨[], ?_⟩, fun p hp => absurd hp List.not_mem_nil,
    ⟨.clear 0, .clear 0, ?_, trivial, .nil _, .fresh⟩, fun m hm => absurd hm List.not_mem_nil,
    fun m hm => absurd hm List.not_mem_nil⟩
  · rw [session, hv]
    rfl
  · have hcleared : (World.start v).session.venue.cleared.tables = ⟨false, 0, ∅, ∅, []⟩ := by
      show Venue.tables (Venue.cleared v) = _
      rw [Venue.cleared, htables]
    rw [hcleared]
    refine ⟨?_, ?_, ?_, ?_, ?_⟩
    · rintro id lo ⟨⟩
    · rintro id lo ⟨⟩
    · rintro id lo ⟨⟩
    · rintro cid r ⟨⟩
    · rintro m ⟨⟩

theorem Reachable.safe (h : Reachable build softCap c W) : Safe build softCap c W := by
  obtain ⟨v, hv, hsteps⟩ := h
  induction hsteps with
  | refl => exact Safe.start hv
  | tail _ hstep ih => exact ih.step hstep

end Steps

/-- A live order of the maker at the venue. -/
structure World.Live (W : World cap) (c : Client) (id : UInt64) (lo : LiveOrder) : Prop where
  entry : W.session.venue.tables.live id = some lo
  owner : lo.owner = c.conn

/-- The order is one of a pair, on its side and at its price. -/
def Pair.Names (p : Pair) (lo : LiveOrder) : Prop :=
  (lo.clientOrderId = utf8 p.bidId ∧ lo.side = .buy ∧ p.quote.bid.ticks? = some lo.priceTicks) ∨
    (lo.clientOrderId = utf8 p.askId ∧ lo.side = .sell ∧ p.quote.ask.ticks? = some lo.priceTicks)

/-- The orders of a phase are those of its pair. -/
theorem Phase.Known.pair {pairs : List Pair} {φ : Phase} (h : φ.Known c pairs) :
    φ.orders = [] ∨ ∃ n q, ⟨c.id (n + 1), c.id (n + 2), q⟩ ∈ pairs ∧
      ∀ o ∈ φ.orders, o = (n + 1, .buy, q.bid) ∨ o = (n + 2, .sell, q.ask) := by
  cases φ with
  | clear n => exact Or.inl rfl
  | bidOut n q => exact Or.inr ⟨n, q, h, fun o ho => Or.inl (List.mem_singleton.mp ho)⟩
  | both n q => exact Or.inr ⟨n, q, h, fun o ho => by simpa [Phase.orders] using ho⟩
  | askOnly n q => exact Or.inr ⟨n, q, h, fun o ho => Or.inr (List.mem_singleton.mp ho)⟩

/-- A maker on connection 1. -/
def desk : Client := ⟨1, "r".toList, 1⟩

def epoch : UtcTime := ⟨0, 0, 0, 0, 0, 0, 0⟩

theorem first_quote : computeQuote 100 0 SPREAD SKEW_K = ⟨9998, 10002⟩ := by decide +kernel

/-- The maker once its first bid is sent. -/
def bidder : Maker := (Maker.start.quoted 100).registered desk ⟨9998, 10002⟩

/-- Its bid in the tables. -/
def bidderTables : Tables :=
  ⟨false, 0, AList.insert 1 ⟨1, utf8 (desk.id 1), exchangeId 1, .buy, 9998, 10⟩ ∅,
    AList.insert 1 (AList.insert (utf8 (desk.id 1)) ⟨.resting, exchangeId 1, 1⟩ ∅) ∅, []⟩

/-- Its bid in the book. -/
def bidderBook : PriorityBook 4 where
  free := [slot 1, slot 2, slot 3]
  queue
    | .buy => [⟨slot 0, 1, 9998, 10, 0, 1⟩]
    | .sell => []
  index := AList.insert 1 (slot 0) ∅
  sequence := 1

def bidAck : Outbound := .ack (utf8 (desk.id 1)) (exchangeId 1)

/-- The first bid rests, its ACK under way. -/
theorem first_bid (build : Build) : ∃ s : Session 4,
    Reachable build 3 desk ⟨bidder, [], s, [.reply bidAck epoch], []⟩ ∧
      s.messages = [(1, bidAck)] ∧ Stands s 3 bidderTables 2 bidderBook := by
  obtain ⟨v₀, hv₀⟩ : ∃ v₀ : Venue 4, Venue.new 4 3 = .ok v₀ := ⟨_, rfl⟩
  have hquoted : (Maker.start.quoted 100).pc = .cancelling ⟨9998, 10002⟩ [] := by
    rw [← first_quote]
    rfl
  have h := new_stands hv₀
  set r : Request := .newOrder (desk.id 1) .buy 9998 with hr
  have hparse := parseInbound_newOrderRequest (desk.id 1) .buy 9998 epoch
  rw [if_pos (show allLegible (desk.id 1) = true by decide +kernel)] at hparse
  have hnew : IsNewOrder (r.payload epoch) (utf8 (desk.id 1)) .buy 9998 10 := by
    constructor <;> rw [hr, hparse]
    · rfl
    · rfl
  have hacc := h.accepts 1 hnew (by decide) rfl (by decide) rfl
  have hadd : (PriorityBook.empty 4).add build .buy 9998 10 1 1 = .ok ([], bidderBook) := by
    refine add_rests 0 [1, 2, 3] rfl rfl (by decide) (by cases build <;> rfl) ?_
    exact book_ext rfl (fun s => by cases s <;> rfl) rfl rfl
  obtain ⟨s, hs, hH, hstands⟩ := h.accept ({ bidderTables with sent := [(1, bidAck)] }) hacc hadd
    fun _ => rfl
  have hmsgs : s.messages = [(1, bidAck)] := by
    rw [Session.messages, hH]
    rfl
  refine ⟨s, ⟨v₀, hv₀, ?_⟩, hmsgs, hstands⟩
  have hreplies : repliesTo desk.conn s =
      repliesTo desk.conn (Session.start v₀) ++ [(bidAck, epoch)].map Prod.fst := by
    rw [repliesTo, hmsgs]
    rfl
  have hquote : Step build desk (World.start v₀) ⟨Maker.start.quoted 100, [], .start v₀, [], []⟩ :=
    .quote 100 rfl
  have hbid : Step build desk ⟨Maker.start.quoted 100, [], .start v₀, [], []⟩
      ⟨bidder, [(r, epoch)], .start v₀, [], []⟩ := .bid epoch hquoted
  have htake : Step build desk ⟨bidder, [(r, epoch)], .start v₀, [], []⟩
      ⟨bidder, [], s, [.reply bidAck epoch], []⟩ := .take [(bidAck, epoch)] rfl hs hreplies
  exact ((Relation.ReflTransGen.single hquote).tail hbid).tail htake

/-! ## A first pair -/

/-- The maker once both orders are sent. -/
def paired : Maker := bidder.asked ⟨desk.id 1, desk.id 2, ⟨9998, 10002⟩⟩

end MarketMakerOps.Ops
