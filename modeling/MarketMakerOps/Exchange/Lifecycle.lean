import MarketMakerOps.Exchange.Runs
import MarketMakerOps.Exchange.Stages

/-!
Every acknowledged order runs through its stages.

* `Placed.At`: where the tables say an order stands;
* `At.afterTrades`, `At.call`: a sweep and a call advance the order;
* `At.run`: so does a run;
* `order_lifecycle`: the messages about every acknowledged order, in every run.
-/

namespace MarketMakerOps.Exchange

open Decimal Engine Fallible

variable {cap : Nat} {build : Build}

namespace Placed

/-- Where the tables say the order with engine id `id` stands. -/
def At (o : Placed) (id : UInt64) (T : Tables) : Stage → Prop
  | .live q => q ≠ 0 ∧
      T.live id = some ⟨o.conn, o.clientOrderId, o.exchangeOrderId, o.side, o.limit, q⟩
  | .filled => T.live id = none ∧ ∃ r, T.record o.conn o.clientOrderId = some r ∧
      r.engineId = id ∧ r.state = .filled
  | .cancelled => T.live id = none ∧ ∃ r, T.record o.conn o.clientOrderId = some r ∧
      r.engineId = id ∧ r.state = .cancelled
  | .dropped => T.live id = none ∧ ∀ c cid r, T.record c cid = some r → r.engineId ≠ id

/-- The stage after some fills. -/
def Stage.after : Stage → List Fill → Stage
  | .live q, fs => if leftAfter q fs = 0 then .filled else .live (leftAfter q fs)
  | st, _ => st

/-- Only a live order is filled. -/
def CanFill (o : Placed) : Stage → List Fill → Prop
  | .live q, fs => FillChain o.side o.limit q fs
  | _, fs => fs = []

variable {o : Placed} {id : UInt64} {T T' : Tables} {st : Stage} {fs gs : List Fill} {n : Nat}

theorem CanFill.append (h : o.CanFill st fs) (h' : o.CanFill (st.after fs) gs) :
    o.CanFill st (fs ++ gs) ∧ (st.after fs).after gs = st.after (fs ++ gs) := by
  cases st with
  | live q =>
    simp only [Stage.after] at h' ⊢
    by_cases h0 : leftAfter q fs = 0
    · rw [if_pos h0] at h' ⊢
      have hgs : gs = [] := h'
      subst hgs
      rw [List.append_nil, if_pos h0]
      exact ⟨h, rfl⟩
    · rw [if_neg h0] at h' ⊢
      rw [leftAfter_append]
      exact ⟨FillChain.append h h', rfl⟩
  | filled => exact ⟨by rw [show fs = [] from h, show gs = [] from h']; rfl, rfl⟩
  | cancelled => exact ⟨by rw [show fs = [] from h, show gs = [] from h']; rfl, rfl⟩
  | dropped => exact ⟨by rw [show fs = [] from h, show gs = [] from h']; rfl, rfl⟩

theorem At.congr (h : o.At id T st) (hl : T'.live id = T.live id)
    (hown : ∀ r, T.record o.conn o.clientOrderId = some r → r.engineId = id → r.state ≠ .resting →
      T'.record o.conn o.clientOrderId = some r)
    (hany : ∀ c cid r, T'.record c cid = some r → r.engineId = id →
      ∃ c cid r, T.record c cid = some r ∧ r.engineId = id) : o.At id T' st := by
  cases st with
  | live q => exact ⟨h.1, hl.trans h.2⟩
  | filled =>
    obtain ⟨hn, r, hr, hid, hst⟩ := h
    exact ⟨hl.trans hn, r, hown r hr hid (by simp [hst]), hid, hst⟩
  | cancelled =>
    obtain ⟨hn, r, hr, hid, hst⟩ := h
    exact ⟨hl.trans hn, r, hown r hr hid (by simp [hst]), hid, hst⟩
  | dropped =>
    refine ⟨hl.trans h.1, fun c cid r hr hid => ?_⟩
    obtain ⟨c, cid, r, hr, hid⟩ := hany c cid r hr hid
    exact h.2 c cid r hr hid

/-! ## Trades -/

section Trades

variable {t : Trade} {b s : LiveOrder}

theorem about_fill (hex : o.exchangeOrderId = exchangeId id) (hrec : T.Recorded n) {id' : UInt64}
    {lo : LiveOrder} (hl : T.live id' = some lo) (hne : id' ≠ id) :
    ¬ (lo.fill t).2.exchangeId? = some o.exchangeOrderId := by
  intro heq
  have hlo : lo.exchangeId = o.exchangeOrderId := Option.some_inj.mp heq
  rw [(hrec.entry id' lo hl).1, hex, exchangeId_inj] at hlo
  exact hne hlo

/-- The leg of a trade that is the order. -/
theorem At.leg (hrec : T.Recorded n) {lo : LiveOrder}
    (h : o.At id T st) (hid : T.live id = some lo) (hpos : 0 < t.quantity)
    (hroom : t.quantity ≤ lo.remaining) (hprice : NoWorse lo.side lo.priceTicks t.price)
    (hlive : (T.onTrade t).live id = lo.after t.quantity)
    (hmark : lo.after t.quantity = none → (T.onTrade t).record lo.owner lo.clientOrderId =
      (T.record lo.owner lo.clientOrderId).map fun r => { r with state := .filled }) :
    ∃ fs, o.CanFill st fs ∧ (lo.fill t).2.exchangeId? = some o.exchangeOrderId ∧
      [lo.fill t] = fs.map o.fill ∧ o.At id (T.onTrade t) (st.after fs) := by
  cases st with
  | live q =>
    obtain ⟨-, hlo⟩ := h
    rw [hid, Option.some_inj] at hlo
    subst hlo
    have hone : (1 : UInt32) ≤ t.quantity := by
      have := UInt32.lt_iff_toNat_lt.mp hpos
      rw [UInt32.le_iff_toNat_le]
      exact this
    refine ⟨[⟨t.quantity, t.price, q - t.quantity⟩], ⟨hone, hroom, hprice, rfl, trivial⟩, rfl,
      rfl, ?_⟩
    show o.At id _ (if q - t.quantity = 0 then .filled else .live (q - t.quantity))
    simp only [LiveOrder.after] at hlive hmark
    split
    · next h0 =>
      rw [if_pos h0] at hlive hmark
      obtain ⟨-, r, hr, hrid, -⟩ := hrec.entry id _ hid
      refine ⟨hlive, { r with state := .filled }, ?_, hrid, rfl⟩
      rw [hmark rfl, hr]
      rfl
    · next h0 =>
      rw [if_neg h0] at hlive
      exact ⟨h0, hlive⟩
  | filled => exact absurd (hid.symm.trans h.1) (by simp)
  | cancelled => exact absurd (hid.symm.trans h.1) (by simp)
  | dropped => exact absurd (hid.symm.trans h.1) (by simp)

/-- A trade advances an order that is a leg of it, and leaves every other order alone. -/
theorem At.onTrade (hex : o.exchangeOrderId = exchangeId id) (hrec : T.Recorded n)
    (hf : T.Fillable t b s) (h : o.At id T st) : ∃ fs, o.CanFill st fs ∧
      about o.exchangeOrderId [b.fill t, s.fill t] = fs.map o.fill ∧
      o.At id (T.onTrade t) (st.after fs) := by
  by_cases hb : id = t.buyOrderId
  · have hprice : NoWorse b.side b.priceTicks t.price := by
      rw [hf.buySide]
      exact hf.buyPrice
    obtain ⟨fs, hfs, habout, hmsg, hat⟩ := h.leg hrec (hb ▸ hf.buy) hf.positive hf.buyRoom hprice
      (by rw [Tables.onTrade_live hf, if_pos hb])
      fun hn => by rw [Tables.onTrade_record hf, if_pos (Or.inl ⟨hn, rfl, rfl⟩)]
    have hother := about_fill (t := t) hex hrec hf.sell fun he => hf.ids_ne (he.trans hb)
    refine ⟨fs, hfs, ?_, hat⟩
    rw [← hmsg]
    simp [about, habout, hother]
  · by_cases hs : id = t.sellOrderId
    · have hprice : NoWorse s.side s.priceTicks t.price := by
        rw [hf.sellSide]
        exact hf.sellPrice
      obtain ⟨fs, hfs, habout, hmsg, hat⟩ := h.leg hrec (hs ▸ hf.sell) hf.positive hf.sellRoom
        hprice (by rw [Tables.onTrade_live hf, if_neg hb, if_pos hs])
        fun hn => by rw [Tables.onTrade_record hf, if_pos (Or.inr ⟨hn, rfl, rfl⟩)]
      have hother := about_fill (t := t) hex hrec hf.buy fun he => hb he.symm
      refine ⟨fs, hfs, ?_, hat⟩
      rw [← hmsg]
      simp [about, habout, hother]
    · have hob := about_fill (t := t) hex hrec hf.buy fun he => hb he.symm
      have hos := about_fill (t := t) hex hrec hf.sell fun he => hs he.symm
      have hsame : st.after [] = st ∨ ∃ q, st = .live q := by
        cases st with
        | live q => exact Or.inr ⟨q, rfl⟩
        | filled => exact Or.inl rfl
        | cancelled => exact Or.inl rfl
        | dropped => exact Or.inl rfl
      have hat : o.At id (T.onTrade t) st := by
        refine h.congr ?_ (fun r hr hid _ => ?_) fun c cid r hr hid => ?_
        · rw [Tables.onTrade_live hf, if_neg hb, if_neg hs]
        · -- the legs' records hold other engine ids
          rw [Tables.onTrade_record hf, if_neg]
          · exact hr
          · rintro (⟨-, hc, hcid⟩ | ⟨-, hc, hcid⟩)
            · obtain ⟨-, r', hr', hid', -⟩ := hrec.entry _ b hf.buy
              rw [← hc, ← hcid, hr, Option.some_inj] at hr'
              exact hb (hid.symm.trans (hr' ▸ hid'))
            · obtain ⟨-, r', hr', hid', -⟩ := hrec.entry _ s hf.sell
              rw [← hc, ← hcid, hr, Option.some_inj] at hr'
              exact hs (hid.symm.trans (hr' ▸ hid'))
        · obtain ⟨r', hr', hid', -⟩ := Tables.record_of_onTrade hf hr
          exact ⟨c, cid, r', hr', hid'.symm.trans hid⟩
      refine ⟨[], ?_, ?_, ?_⟩
      · cases st <;> trivial
      · simp [about, hob, hos]
      · rcases hsame with hsame | ⟨q, rfl⟩
        · rwa [hsame]
        · show o.At id _ (if q = 0 then .filled else .live q)
          rwa [if_neg hat.1]

theorem At.afterTrades (hex : o.exchangeOrderId = exchangeId id) (hrec : T.Recorded n)
    {ts : List Trade} (hf : T.Fills ts) (h : o.At id T st) : ∃ fs msgs, o.CanFill st fs ∧
      (T.afterTrades ts).sent = T.sent ++ msgs ∧
      about o.exchangeOrderId msgs = fs.map o.fill ∧ o.At id (T.afterTrades ts) (st.after fs) := by
  induction ts generalizing T st with
  | nil =>
    refine ⟨[], [], ?_, (List.append_nil _).symm, rfl, ?_⟩
    · cases st <;> trivial
    · cases st with
      | live q =>
        show o.At id _ (if q = 0 then .filled else .live q)
        rw [if_neg h.1]
        exact h
      | filled => exact h
      | cancelled => exact h
      | dropped => exact h
  | cons t ts ih =>
    obtain ⟨⟨b, s, hbs⟩, hts⟩ := hf
    obtain ⟨fs, hfs, hmsg, hat⟩ := h.onTrade hex hrec hbs
    obtain ⟨gs, msgs, hgs, hsent, hmsgs, hat'⟩ := ih (hrec.onTrade hbs) hts hat
    obtain ⟨hcan, hafter⟩ := hfs.append hgs
    refine ⟨fs ++ gs, [b.fill t, s.fill t] ++ msgs, hcan, ?_, ?_, hafter ▸ hat'⟩
    · rw [← List.append_assoc, ← Tables.onTrade_sent hbs]
      exact hsent
    · rw [about_append, hmsg, hmsgs, List.map_append]

end Trades

/-! ## Calls -/

/-- The stage of an order after a call, with the messages about it. -/
theorem Advance.of_fills {ev : Event} {msgs : List Sent} (h : o.At id T st) (hfs : o.CanFill st fs)
    (hsent : about o.exchangeOrderId msgs = fs.map o.fill) (hstay : ev ≠ .drop o.conn)
    (hreply : (st = .filled → o.IsCancelled ev → msgs = [o.tooLate .alreadyFilled]) ∧
      (st = .cancelled → o.IsCancelled ev → msgs = [o.tooLate .alreadyCancelled])) :
    o.Advance st (ev, msgs) (st.after fs) := by
  cases st with
  | live q => exact .fills fs h.1 hstay hfs hsent
  | filled =>
    have hnil : fs = [] := hfs
    subst hnil
    exact .filled hstay hsent (hreply.1 rfl)
  | cancelled =>
    have hnil : fs = [] := hfs
    subst hnil
    exact .cancelled hstay hsent (hreply.2 rfl)
  | dropped =>
    have hnil : fs = [] := hfs
    subst hnil
    exact .dropped hsent

/-- A call that does not concern the order. -/
theorem Advance.of_silent {ev : Event} {msgs : List Sent} (h : o.At id T st)
    (hsent : about o.exchangeOrderId msgs = []) (hstay : ev ≠ .drop o.conn)
    (hreply : (st = .filled → o.IsCancelled ev → msgs = [o.tooLate .alreadyFilled]) ∧
      (st = .cancelled → o.IsCancelled ev → msgs = [o.tooLate .alreadyCancelled])) :
    o.Advance st (ev, msgs) st := by
  have hafter : st.after [] = st := by
    cases st with
    | live q => exact if_neg h.1
    | filled => rfl
    | cancelled => rfl
    | dropped => rfl
  have hcan : o.CanFill st [] := by
    cases st <;> trivial
  have hadv := Advance.of_fills h hcan hsent hstay hreply
  rwa [hafter] at hadv

section Calls

variable {v v' : Venue cap} {a : PriorityBook cap} {ev : Event}

/-- A CANCEL of an order that is no longer resting is refused. -/
theorem handle_late_cancel {conn : ConnId} {payload cid : Bytes} {r : ClientRecord}
    (hc : IsCancel payload cid) (hr : v.tables.record conn cid = some r) :
    (r.state = .filled → v.handle build (.line conn payload) =
      .ok (v.send conn (.cancelReject cid .alreadyFilled))) ∧
    (r.state = .cancelled → v.handle build (.line conn payload) =
      .ok (v.send conn (.cancelReject cid .alreadyCancelled))) := by
  obtain ⟨records, hrecords, hlook⟩ := Option.bind_eq_some_iff.mp hr
  constructor <;> intro hst <;>
    simp [Venue.handle, Venue.handleLine, Venue.handleMessage, hc.readable, hc.type,
      Venue.handleCancel, hc.names, hrecords, hlook, hst]

theorem At.reply (h : o.At id v.tables st) (hsent : v.tables.sent = [])
    (hv : v.handle build ev = .ok v') :
    (st = .filled → o.IsCancelled ev → v'.tables.sent = [o.tooLate .alreadyFilled]) ∧
    (st = .cancelled → o.IsCancelled ev → v'.tables.sent = [o.tooLate .alreadyCancelled]) := by
  constructor
  · rintro rfl ⟨payload, rfl, hc⟩
    obtain ⟨-, r, hr, -, hst⟩ := h
    rw [(handle_late_cancel hc hr).1 hst] at hv
    cases hv
    show v.tables.sent ++ _ = _
    rw [hsent]
    rfl
  · rintro rfl ⟨payload, rfl, hc⟩
    obtain ⟨-, r, hr, -, hst⟩ := h
    rw [(handle_late_cancel hc hr).2 hst] at hv
    cases hv
    show v.tables.sent ++ _ = _
    rw [hsent]
    rfl

theorem At.entered (h : o.At id v.tables st) {conn : ConnId} {cid : Bytes} {side : OrderSide}
    {p q : UInt32} (hfresh : v.tables.record conn cid = none) (hid : id ≠ v.nextEngineId) :
    o.At id (v.entered conn cid side p q) st := by
  refine h.congr ?_ (fun r hr _ _ => ?_) fun c cid' r hr hrid => ?_
  · rw [entered_live, if_neg hid]
  · rw [entered_record, if_neg]
    · exact hr
    · rintro ⟨hc, hcid⟩
      rw [hc, hcid, hfresh] at hr
      cases hr
  · rw [entered_record] at hr
    split at hr
    · cases hr
      exact absurd hrid.symm hid
    · exact ⟨c, cid', r, hr, hrid⟩

/-- The engine id of a resting record is live. -/
theorem At.live_of_record (h : o.At id T st) (hrec : T.Recorded n) {conn : ConnId} {cid : Bytes}
    {r : ClientRecord} (hr : T.record conn cid = some r) (hst : r.state = .resting)
    (hid : r.engineId = id) : conn = o.conn ∧ cid = o.clientOrderId ∧ ∃ q, st = .live q := by
  obtain ⟨lo, hlo, ho, hc⟩ := hrec.resting conn cid r hr hst
  rw [hid] at hlo
  cases st with
  | live q =>
    have heq := Option.some_inj.mp (hlo.symm.trans h.2)
    subst heq
    exact ⟨ho.symm, hc.symm, q, rfl⟩
  | filled => exact absurd (hlo.symm.trans h.1) (by simp)
  | cancelled => exact absurd (hlo.symm.trans h.1) (by simp)
  | dropped => exact absurd (hlo.symm.trans h.1) (by simp)

theorem At.cancel (h : o.At id v.tables st) (hex : o.exchangeOrderId = exchangeId id)
    (hrec : v.tables.Recorded n) {conn : ConnId} {payload cid : Bytes} {r : ClientRecord}
    (hc : IsCancel payload cid) (hr : v.tables.record conn cid = some r) (hst : r.state = .resting)
    (book : OrderBook cap) (hsent : v.tables.sent = [])
    (hreply : (st = .filled → o.IsCancelled (.line conn payload) →
        (v.cancelled conn cid r book).tables.sent = [o.tooLate .alreadyFilled]) ∧
      (st = .cancelled → o.IsCancelled (.line conn payload) →
        (v.cancelled conn cid r book).tables.sent = [o.tooLate .alreadyCancelled])) : ∃ st',
      o.Advance st (.line conn payload, (v.cancelled conn cid r book).tables.sent) st' ∧
      o.At id (v.cancelled conn cid r book).tables st' := by
  have hexr := (hrec.issued conn cid r hr).1
  have hmsg : (v.cancelled conn cid r book).tables.sent =
      [(conn, .cancelAck cid r.exchangeId)] := by
    rw [cancelled_sent, hsent]
    rfl
  by_cases hid : r.engineId = id
  · obtain ⟨rfl, rfl, q, rfl⟩ := h.live_of_record hrec hr hst hid
    refine ⟨.cancelled, .cancel h.1 ⟨payload, rfl, hc⟩ ?_, ?_, { r with state := .cancelled }, ?_,
      hid, rfl⟩
    · rw [hmsg, hexr, hid, ← hex]
      simp [about, Outbound.exchangeId?, cancelAck]
    · rw [cancelled_live, if_pos hid.symm]
    · rw [cancelled_record, if_pos ⟨rfl, rfl⟩]
  · refine ⟨st, Advance.of_silent h ?_ (by simp) hreply, ?_⟩
    · rw [hmsg, about_eq_nil]
      simp only [List.mem_singleton, forall_eq]
      intro heq
      have heq : r.exchangeId = o.exchangeOrderId := Option.some_inj.mp heq
      rw [hexr, hex, exchangeId_inj] at heq
      exact hid heq
    · refine h.congr ?_ (fun r' hr' hid' _ => ?_) fun c cid' r' hr' hid' => ?_
      · rw [cancelled_live, if_neg (Ne.symm hid)]
      · rw [cancelled_record, if_neg]
        · exact hr'
        · rintro ⟨hconn, hcid⟩
          rw [hconn, hcid, hr, Option.some_inj] at hr'
          exact hid (hr' ▸ hid')
      · rw [cancelled_record] at hr'
        split at hr'
        · next hkey =>
          cases hr'
          exact absurd hid' hid
        · exact ⟨c, cid', r', hr', hid'⟩

theorem At.drop (h : o.At id T st) (hrec : T.Recorded n) {conn : ConnId}
    (hlive : ∀ id, T'.live id = (T.live id).filter fun lo => lo.owner ≠ conn)
    (hrecord : ∀ c cid, T'.record c cid = if c = conn then none else T.record c cid) :
    ∃ st', o.Advance st (.drop conn, []) st' ∧ o.At id T' st' := by
  by_cases hconn : conn = o.conn
  · subst hconn
    refine ⟨.dropped, .drop rfl, ?_, fun c cid r hr hid => ?_⟩
    · rw [hlive]
      cases st with
      | live q => rw [h.2]; simp [Option.filter]
      | filled => rw [h.1]; rfl
      | cancelled => rw [h.1]; rfl
      | dropped => rw [h.1]; rfl
    · rw [hrecord] at hr
      split at hr
      · cases hr
      · next hc =>
        -- a record of this engine id is the owner's
        have hown : ∀ r', T.record o.conn o.clientOrderId = some r' → r'.engineId = id → False :=
          fun r' hr' hid' => hc (hrec.inj c cid r _ _ r' hr hr' (hid.trans hid'.symm)).1
        cases st with
        | live q =>
          obtain ⟨-, r', hr', hid', -⟩ := hrec.entry id _ h.2
          exact hown r' hr' hid'
        | filled =>
          obtain ⟨-, r', hr', hid', -⟩ := h
          exact hown r' hr' hid'
        | cancelled =>
          obtain ⟨-, r', hr', hid', -⟩ := h
          exact hown r' hr' hid'
        | dropped => exact h.2 c cid r hr hid
  · refine ⟨st, Advance.of_silent h rfl (by simpa using hconn) ⟨?_, ?_⟩, ?_⟩
    · rintro - ⟨payload, hev, -⟩
      cases hev
    · rintro - ⟨payload, hev, -⟩
      cases hev
    · refine h.congr ?_ (fun r hr _ _ => ?_) fun c cid r hr hid => ?_
      · rw [hlive]
        cases st with
        | live q => rw [h.2]; simp [Option.filter, Ne.symm hconn]
        | filled => rw [h.1]; rfl
        | cancelled => rw [h.1]; rfl
        | dropped => rw [h.1]; rfl
      · rw [hrecord, if_neg (Ne.symm hconn)]
        exact hr
      · rw [hrecord] at hr
        split at hr
        · cases hr
        · exact ⟨c, cid, r, hr, hid⟩

theorem At.call (h : o.At id v.tables st) (hex : o.exchangeOrderId = exchangeId id)
    (hid : id.toNat ≤ n) (hs : Synced n v a) (hsent : v.tables.sent = [])
    (hv : v.handle build ev = .ok v') (hlt : n + acks v'.tables.sent < 2 ^ 64) : ∃ st',
      o.Advance st (ev, v'.tables.sent) st' ∧ o.At id v'.tables st' := by
  have hreply := h.reply hsent hv
  cases handled_ok hv with
  | quiet result msgs _ _ _ live record sent about' =>
    cases result
    have hlive : ∀ id, v'.tables.live id = v.tables.live id := by
      intro id
      rw [Tables.live, live]
      rfl
    refine ⟨st, Advance.of_silent h ?_ (by simp) hreply, h.congr (hlive id) (fun r hr _ _ => ?_)
      fun c cid r hr hrid => ?_⟩
    · rw [sent, hsent, List.nil_append, about_eq_nil]
      intro m hm heq
      rw [about' m hm] at heq
      cases heq
    · rw [record]
      exact hr
    · rw [record] at hr
      exact ⟨c, cid, r, hr, hrid⟩
  | @accept conn payload cid side p q _ accepts result =>
    rw [hs.acks_accept hsent result.symm] at hlt
    obtain ⟨ts, -, -, hfills, hT, -⟩ := hs.accept hlt accepts result.symm
    have hnext := hs.nextEngineId hlt
    have hne : id ≠ v.nextEngineId := by
      rintro rfl
      omega
    have hrec := hs.recorded_entered side p q hlt accepts.fresh
    obtain ⟨fs, msgs, hfs, hsent', habout, hat⟩ :=
      (h.entered accepts.fresh hne).afterTrades hex hrec hfills
    rw [← hT, entered_sent, hsent] at hsent'
    refine ⟨_, Advance.of_fills h hfs ?_ (by simp) hreply, hT ▸ hat⟩
    rw [hsent', about_append, habout]
    -- the acknowledgement is about the new order
    have hack : about o.exchangeOrderId [(conn, .ack cid (exchangeId v.nextEngineId))] = [] := by
      rw [about_eq_nil]
      simp only [List.mem_singleton, forall_eq]
      intro heq
      have heq : exchangeId v.nextEngineId = o.exchangeOrderId := Option.some_inj.mp heq
      rw [hex, exchangeId_inj] at heq
      exact hne heq.symm
    rw [List.nil_append, hack]
    rfl
  | cancel isCancel record resting result =>
    obtain ⟨book, -, hv'⟩ := bind_eq_ok.mp result.symm
    cases hv'
    exact h.cancel hex hs.recorded isCancel record resting book hsent hreply
  | drop result =>
    obtain ⟨a', -, -, hlive, hrecord, hsent', -⟩ := post_of_ok (hs.drop build _) result.symm
    rw [hsent', hsent]
    exact h.drop hs.recorded hlive hrecord

/-- The order a call acknowledges, and its first fills. -/
theorem At.accepted (hs : Synced n v a) (hsent : v.tables.sent = [])
    (hv : v.handle build ev = .ok v') (hlt : n + acks v'.tables.sent < 2 ^ 64) {c : ConnId}
    {cid e : Bytes} (hack : (c, .ack cid e) ∈ v'.tables.sent) : ∃ payload side p q id rest st,
      ev = .line c payload ∧ IsNewOrder payload cid side p q ∧ q ≠ 0 ∧
      e = exchangeId id ∧ id.toNat = n + 1 ∧ v'.tables.sent = (c, .ack cid e) :: rest ∧
      Advance ⟨c, cid, e, side, p⟩ (.live q) (ev, rest) st ∧
      At ⟨c, cid, e, side, p⟩ id v'.tables st := by
  cases handled_ok hv with
  | quiet result msgs _ _ _ _ _ sent about' =>
    cases result
    rw [sent, hsent, List.nil_append] at hack
    have := about' _ hack
    cases this
  | @accept conn payload cid' side p q _ accepts result =>
    rw [hs.acks_accept hsent result.symm] at hlt
    obtain ⟨ts, -, -, hfills, hT, -⟩ := hs.accept hlt accepts result.symm
    have hrec := hs.recorded_entered side p q hlt accepts.fresh
    set o : Placed := ⟨conn, cid', exchangeId v.nextEngineId, side, p⟩ with ho
    have hat : o.At v.nextEngineId (v.entered conn cid' side p q) (.live q) := by
      refine ⟨accepts.positive, ?_⟩
      rw [entered_live, if_pos rfl]
      rfl
    obtain ⟨fs, msgs, hfs, hsent', habout, hat'⟩ := hat.afterTrades rfl hrec hfills
    rw [← hT, entered_sent, hsent] at hsent'
    have hmsgs : ∀ m ∈ msgs, m.2.isAck = false := by
      intro m hm
      have h1 := hs.acks_accept hsent result.symm
      rw [hsent', List.nil_append, acks_append] at h1
      have h0 : acks msgs = 0 := by
        have : acks [((conn, .ack cid' (exchangeId v.nextEngineId)) : Sent)] = 1 := rfl
        omega
      exact Bool.eq_false_iff.mpr (List.countP_eq_zero.mp h0 m hm)
    rw [hsent', List.nil_append, List.singleton_append, List.mem_cons] at hack
    rcases hack with hack | hack
    · cases hack
      refine ⟨payload, side, p, q, v.nextEngineId, msgs, _, rfl, accepts.toIsNewOrder,
        accepts.positive, rfl, hs.nextEngineId hlt, hsent', ?_, hT ▸ hat'⟩
      exact Advance.of_fills hat hfs habout (by simp) ⟨by simp, by simp⟩
    · exact absurd (hmsgs _ hack) (by simp [Outbound.isAck])
  | cancel _ _ _ result =>
    obtain ⟨book, -, hv'⟩ := bind_eq_ok.mp result.symm
    cases hv'
    rw [cancelled_sent, hsent] at hack
    simp at hack
  | drop result =>
    obtain ⟨a', -, -, -, -, hsent', -⟩ := post_of_ok (hs.drop build _) result.symm
    rw [hsent', hsent] at hack
    cases hack

end Calls

/-! ## Runs -/

section Runs

variable {s s' : Session cap} {events : List Event}

theorem At.cleared (h : o.At id s.venue.tables st) : o.At id s.venue.cleared.tables st := by
  cases st with
  | live q => exact h
  | filled => exact h
  | cancelled => exact h
  | dropped => exact h

/-- A run advances every order. -/
theorem At.run (h : o.At id s.venue.tables st) (hex : o.exchangeOrderId = exchangeId id)
    (hid : id.toNat ≤ s.accepted) (hs : s.Synced)
    (hrun : run (Session.step build) s events = .ok s') (hlt : s'.accepted < 2 ^ 64) :
    ∃ H st', s'.history = s.history ++ H ∧ o.Follows st H st' := by
  induction events generalizing s st with
  | nil =>
    cases hrun
    exact ⟨[], st, (List.append_nil _).symm, .nil st⟩
  | cons ev events ih =>
    obtain ⟨s₁, hstep, hrun⟩ := bind_eq_ok.mp hrun
    have hmono := Session.accepted_mono hstep
    have hlt₁ : s₁.accepted < 2 ^ 64 := lt_of_le_of_lt (Session.accepted_mono_run hrun) hlt
    have hs₁ := hs.step hstep hlt₁
    obtain ⟨a, hsync⟩ := hs
    obtain ⟨v', hv', rfl⟩ := Session.step_eq_ok.mp hstep
    rw [Session.accepted_concat] at hlt₁
    obtain ⟨st₁, hadv, hat⟩ := h.cleared.call hex hid hsync.cleared rfl hv' hlt₁
    obtain ⟨H, st', hH, hfol⟩ := ih hat (le_trans hid hmono) hs₁ hrun
    refine ⟨(ev, v'.tables.sent) :: H, st', ?_, .cons hadv hfol⟩
    rw [hH, List.append_assoc]
    rfl

end Runs

end Placed

/-! ## Exchange ids -/

/-- The exchange id an acknowledgement issues. -/
def Outbound.ackId? : Outbound → Option Bytes
  | .ack _ e => some e
  | _ => none

def issuedIds (msgs : List Sent) : List Bytes := msgs.filterMap fun m => m.2.ackId?

/-- All messages are about the orders with the first `n` engine ids. -/
def AboutFirst (n : Nat) (msgs : List Sent) : Prop :=
  ∀ m ∈ msgs, ∀ e, m.2.exchangeId? = some e → ∃ id : UInt64, id.toNat ≤ n ∧ e = exchangeId id

section Issued

variable {n : Nat} {msgs msgs' : List Sent}

theorem issuedIds_append : issuedIds (msgs ++ msgs') = issuedIds msgs ++ issuedIds msgs' :=
  List.filterMap_append ..

theorem issuedIds_of_acks (h : acks msgs = 0) : issuedIds msgs = [] := by
  refine List.filterMap_eq_nil_iff.mpr fun m hm => ?_
  have hack := List.countP_eq_zero.mp h m hm
  obtain ⟨c, m⟩ := m
  cases m <;> simp_all [Outbound.ackId?, Outbound.isAck]

theorem AboutFirst.mono {k : Nat} (h : AboutFirst n msgs) (hk : n ≤ k) : AboutFirst k msgs := by
  intro m hm e he
  obtain ⟨id, hid, heq⟩ := h m hm e he
  exact ⟨id, le_trans hid hk, heq⟩

theorem AboutFirst.append (h : AboutFirst n msgs) (h' : AboutFirst n msgs') :
    AboutFirst n (msgs ++ msgs') := by
  intro m hm
  rcases List.mem_append.mp hm with hm | hm
  · exact h m hm
  · exact h' m hm

/-- The fills of a sweep are about orders in the tables. -/
theorem aboutFirst_afterTrades {T : Tables} {ts : List Trade} (hrec : T.Recorded n)
    (hf : T.Fills ts) (h : AboutFirst n T.sent) : AboutFirst n (T.afterTrades ts).sent := by
  induction ts generalizing T with
  | nil => exact h
  | cons t ts ih =>
    obtain ⟨⟨b, s, hbs⟩, hts⟩ := hf
    refine ih (hrec.onTrade hbs) hts ?_
    rw [Tables.onTrade_sent hbs]
    refine h.append ?_
    have hleg : ∀ {id : UInt64} {lo : LiveOrder}, T.live id = some lo → ∀ e,
        (lo.fill t).2.exchangeId? = some e → ∃ id : UInt64, id.toNat ≤ n ∧ e = exchangeId id := by
      intro id lo hl e he
      have heq : lo.exchangeId = e := Option.some_inj.mp he
      exact ⟨id, (hrec.live_issued hl).2, heq.symm.trans (hrec.entry id lo hl).1⟩
    intro m hm
    simp only [List.mem_cons, List.not_mem_nil, or_false] at hm
    rcases hm with rfl | rfl
    · exact hleg hbs.buy
    · exact hleg hbs.sell

/-- A call issues the next exchange id or none, and speaks of issued ones only. -/
theorem Synced.sent_of_call {v v' : Venue cap} {a : PriorityBook cap} (hs : Synced n v a)
    (hsent : v.tables.sent = []) {ev : Event} (hv : v.handle build ev = .ok v')
    (hlt : n + acks v'.tables.sent < 2 ^ 64) :
    AboutFirst (n + acks v'.tables.sent) v'.tables.sent ∧
    issuedIds v'.tables.sent = (List.range' (n + 1) (acks v'.tables.sent)).map fun k =>
      exchangeId (UInt64.ofNat k) := by
  cases handled_ok hv with
  | quiet result msgs _ _ _ _ _ sent about' =>
    cases result
    rw [sent, hsent, List.nil_append, acks_eq_zero about']
    refine ⟨fun m hm e he => ?_, issuedIds_of_acks (acks_eq_zero about')⟩
    rw [about' m hm] at he
    cases he
  | @accept conn payload cid side p q _ accepts result =>
    have hone := hs.acks_accept hsent result.symm
    rw [hone] at hlt
    obtain ⟨ts, -, -, hfills, hT, -⟩ := hs.accept hlt accepts result.symm
    have hrec := hs.recorded_entered side p q hlt accepts.fresh
    have hnext := hs.nextEngineId hlt
    have hentered : AboutFirst (n + 1) (v.entered conn cid side p q).sent := by
      rw [entered_sent, hsent]
      intro m hm e he
      rw [List.nil_append, List.mem_singleton] at hm
      subst hm
      exact ⟨v.nextEngineId, hnext.le, (Option.some_inj.mp he).symm⟩
    rw [hone]
    refine ⟨hT ▸ aboutFirst_afterTrades hrec hfills hentered, ?_⟩
    obtain ⟨msgs, hmsgs⟩ := Tables.afterTrades_sent hfills
    rw [← hT, entered_sent, hsent, List.nil_append] at hmsgs
    have hzero : acks msgs = 0 := by
      have hack : acks [((conn, .ack cid (exchangeId v.nextEngineId)) : Sent)] = 1 := rfl
      rw [hmsgs, acks_append] at hone
      omega
    rw [hmsgs, issuedIds_append, issuedIds_of_acks hzero, List.append_nil,
      show v.nextEngineId = UInt64.ofNat (n + 1) from hs.clock]
    rfl
  | cancel _ record _ result =>
    obtain ⟨book, -, hv'⟩ := bind_eq_ok.mp result.symm
    cases hv'
    rw [cancelled_sent, hsent]
    refine ⟨fun m hm e he => ?_, rfl⟩
    rw [List.nil_append, List.mem_singleton] at hm
    subst hm
    obtain ⟨hex, -, hle⟩ := hs.recorded.issued _ _ _ record
    exact ⟨_, hle, (Option.some_inj.mp he).symm.trans hex⟩
  | drop result =>
    obtain ⟨a', -, -, -, -, hsent', -⟩ := post_of_ok (hs.drop build _) result.symm
    rw [hsent', hsent]
    exact ⟨fun _ hm => (List.not_mem_nil hm).elim, rfl⟩

variable {s : Session cap} {softCap : Nat} {events : List Event}

/-- The exchange ids of a run are issued in order, and all messages are about issued ones. -/
theorem session_issued (h : session build cap softCap events = .ok s) (hlt : s.accepted < 2 ^ 64) :
    AboutFirst s.accepted s.messages ∧
    issuedIds s.messages = (List.range' 1 s.accepted).map fun k => exchangeId (UInt64.ofNat k) := by
  refine (session_inv (fun s => s.accepted < 2 ^ 64 → s.Synced ∧ AboutFirst s.accepted s.messages ∧
    issuedIds s.messages = (List.range' 1 s.accepted).map fun k => exchangeId (UInt64.ofNat k))
    (fun v hv _ => ⟨⟨_, (Venue.new_eq_ok hv).2⟩, fun _ hm => (List.not_mem_nil hm).elim, rfl⟩)
    (fun s ev s' hs hstep hlt => ?_) h hlt).2
  obtain ⟨hsync, habout, hids⟩ := hs (lt_of_le_of_lt (Session.accepted_mono hstep) hlt)
  refine ⟨hsync.step hstep hlt, ?_⟩
  obtain ⟨a, hsync⟩ := hsync
  obtain ⟨v', hv', rfl⟩ := Session.step_eq_ok.mp hstep
  have hacc := s.accepted_concat ev v'
  rw [hacc] at hlt ⊢
  obtain ⟨h1, h2⟩ := hsync.cleared.sent_of_call rfl hv' hlt
  have hmsgs : Session.messages ⟨s.history ++ [(ev, v'.tables.sent)], v'⟩ =
      s.messages ++ v'.tables.sent := by
    simp [Session.messages]
  rw [hmsgs]
  refine ⟨(habout.mono (Nat.le_add_right _ _)).append h1, ?_⟩
  rw [issuedIds_append, hids, h2, ← List.map_append]
  refine congrArg _ ?_
  have := List.range'_append_1 (s := 1) (m := s.accepted) (n := acks v'.tables.sent)
  rwa [Nat.add_comm 1] at this

/-- An acknowledged order and the history around it. -/
theorem session_order (h : session build cap softCap events = .ok s) (hlt : s.accepted < 2 ^ 64)
    {pre post : List (Event × List Sent)} {ev : Event} {msgs : List Sent}
    (hH : s.history = pre ++ (ev, msgs) :: post) {c : ConnId} {cid e : Bytes}
    (hack : (c, .ack cid e) ∈ msgs) : ∃ payload side p q rest st,
      ev = .line c payload ∧ IsNewOrder payload cid side p q ∧ q ≠ 0 ∧
      msgs = (c, .ack cid e) :: rest ∧ about e (sentIn pre) = [] ∧
      Placed.Follows ⟨c, cid, e, side, p⟩ (.live q) ((ev, rest) :: post) st := by
  obtain ⟨s₁, s₂, hs₁, hpre, hstep, hs₂, hrun⟩ := session_split h hH
  have hlt₂ := lt_of_le_of_lt (Session.accepted_mono_run hrun) hlt
  have hlt₁ := lt_of_le_of_lt (Session.accepted_mono hstep) hlt₂
  have hsync := session_synced hs₁ hlt₁
  have hsync₂ := hsync.step hstep hlt₂
  obtain ⟨habout, -⟩ := session_issued hs₁ hlt₁
  obtain ⟨a, hsync⟩ := hsync
  obtain ⟨v', hv', rfl⟩ := Session.step_eq_ok.mp hstep
  have hmsgs : v'.tables.sent = msgs := by
    rw [hpre] at hs₂
    have := List.append_cancel_left hs₂
    simpa using this
  have hacc := s₁.accepted_concat ev v'
  have hbound : s₁.accepted + acks v'.tables.sent < 2 ^ 64 := hacc ▸ hlt₂
  obtain ⟨payload, side, p, q, id, rest, st, hev, hnew, hq, he, hid, hrest, hadv, hat⟩ :=
    Placed.At.accepted hsync.cleared rfl hv' hbound (hmsgs ▸ hack)
  have hone : id.toNat ≤ s₁.accepted + acks v'.tables.sent := by
    have : acks v'.tables.sent ≠ 0 := by
      rw [hrest, acks, List.countP_cons]
      simp [Outbound.isAck]
    omega
  obtain ⟨H, st', hH', hfol⟩ := hat.run he (hacc ▸ hone) hsync₂ hrun hlt
  have hpost : H = post := by
    rw [hH, hs₂, List.append_assoc] at hH'
    exact (List.cons.inj (List.append_cancel_left hH')).2.symm
  subst hpost
  refine ⟨payload, side, p, q, rest, st', hev, hnew, hq, hmsgs ▸ hrest, ?_, .cons hadv hfol⟩
  -- what was said before is about earlier orders
  rw [about_eq_nil]
  intro m hm heq
  obtain ⟨id', hid', he'⟩ := habout m (by rw [Session.messages, hpre]; exact hm) e heq
  rw [he, exchangeId_inj] at he'
  rw [← he', hid] at hid'
  omega

end Issued

/-- The wire life of every acknowledged order, in every run with fewer than `2 ^ 64` of them. -/
theorem order_lifecycle {softCap : Nat} {events : List Event} {s : Session cap}
    (h : session build cap softCap events = .ok s) (hlt : s.accepted < 2 ^ 64) :
    (issuedIds s.messages).Nodup ∧
    ∀ pre ev msgs post c cid e, s.history = pre ++ (ev, msgs) :: post →
      (c, .ack cid e) ∈ msgs → ∃ payload side p q, ev = .line c payload ∧
      IsNewOrder payload cid side p q ∧
      -- one acknowledgement, fills, at most one cancellation of what is left
      (∃ fs cs, about e s.messages = (c, .ack cid e) ::
          (fs.map fun f => (c, .fill e cid f.qty f.price f.remaining)) ++ cs ∧
        FillChain side p q fs ∧
        (cs = [] ∨ cs = [(c, .cancelAck cid e)] ∧ leftAfter q fs ≠ 0)) ∧
      -- nothing once the connection is dropped
      (∀ H m H', post = H ++ (.drop c, m) :: H' → about e (m ++ sentIn H') = []) ∧
      -- a CANCEL that comes too late, while the connection stays
      ∀ H payload' m H', post = H ++ (.line c payload', m) :: H' → IsCancel payload' cid →
        (∀ x ∈ H, x.1 ≠ .drop c) →
        ((∃ qty price, (c, .fill e cid qty price 0) ∈ msgs ++ sentIn H) →
          m = [(c, .cancelReject cid .alreadyFilled)]) ∧
        ((c, .cancelAck cid e) ∈ msgs ++ sentIn H →
          m = [(c, .cancelReject cid .alreadyCancelled)]) := by
  constructor
  · rw [(session_issued h hlt).2]
    refine (List.nodup_range' ..).map_on fun i hi j hj heq => ?_
    rw [List.mem_range'_1] at hi hj
    have hi64 : i < 2 ^ 64 := by omega
    have hj64 : j < 2 ^ 64 := by omega
    rwa [exchangeId_inj, ← UInt64.toNat_inj, UInt64.toNat_ofNat_of_lt' hi64,
      UInt64.toNat_ofNat_of_lt' hj64] at heq
  · intro pre ev msgs post c cid e hH hack
    obtain ⟨payload, side, p, q, rest, st, rfl, hnew, hq, rfl, hpre, hfol⟩ :=
      session_order h hlt hH hack
    set o : Placed := ⟨c, cid, e, side, p⟩ with ho
    refine ⟨payload, side, p, q, rfl, hnew, ?_, ?_, ?_⟩
    · obtain ⟨fs, cs, hmsgs, hchain, hcs⟩ := hfol.about_eq
      refine ⟨fs, cs, ?_, hchain, hcs⟩
      have hall : s.messages = sentIn pre ++ ((c, .ack cid e) :: (rest ++ sentIn post)) := by
        rw [Session.messages, hH]
        exact (sentIn_append _ _).trans (congrArg _ (sentIn_cons _ _))
      rw [hall, about_append, hpre, List.nil_append]
      show about e ([(c, .ack cid e)] ++ (rest ++ sentIn post)) = _
      have hone : about e [((c, .ack cid e) : Sent)] = [(c, .ack cid e)] := by
        simp [about, Outbound.exchangeId?]
      rw [about_append, hone]
      exact congrArg _ hmsgs
    · rintro H m H' rfl
      exact Placed.Follows.after_drop (H := (.line c payload, rest) :: H) hfol
    · rintro H payload' m H' rfl hcancel hstay
      have hreply := Placed.Follows.reply (H := (.line c payload, rest) :: H) hfol
        ⟨payload', rfl, hcancel⟩ (List.forall_mem_cons.mpr ⟨by simp, hstay⟩)
      -- neither message is the acknowledgement itself
      have hsent : ∀ x : Sent, x ≠ (c, .ack cid e) → x.2.exchangeId? = some e →
          x ∈ (c, .ack cid e) :: rest ++ sentIn H →
          x ∈ about e (sentIn ((.line c payload, rest) :: H)) := by
        intro x hx he hmem
        rw [List.cons_append, List.mem_cons] at hmem
        exact mem_about.mpr ⟨hmem.resolve_left hx, he⟩
      constructor
      · rintro ⟨qty, price, hmem⟩
        refine hreply.1 ⟨⟨qty, price, 0⟩, rfl, hsent _ (fun heq => ?_) rfl hmem⟩
        cases heq
      · intro hmem
        refine hreply.2 (hsent _ (fun heq => ?_) rfl hmem)
        cases heq

/-- A bid is filled in part, cancelled, and cancelled again. -/
def cancelTwice : List Event := partialFill ++
  [.line 1 (cancelLine idA idA), .line 1 (cancelLine idA idA)]

theorem order_lifecycle_cancelled : ∃ (s : Session 3) (fs : List Fill) (m : List Sent),
    session .ndebug 3 2 cancelTwice = .ok s ∧ (issuedIds s.messages).Nodup ∧
    about (exchangeId 1) s.messages = (1, .ack idA.bytes (exchangeId 1)) ::
      (fs.map fun f => (1, .fill (exchangeId 1) idA.bytes f.qty f.price f.remaining)) ++
        [(1, .cancelAck idA.bytes (exchangeId 1))] ∧
    s.history.drop 3 = [(.line 1 (cancelLine idA idA), m)] ∧
    m = [(1, .cancelReject idA.bytes .alreadyCancelled)] := by
  obtain ⟨s, hs, hp⟩ : ∃ s : Session 3, session .ndebug 3 2 cancelTwice = .ok s ∧
      decide (s.accepted < 2 ^ 64 ∧ s.history.take 3 =
        [(.line 1 (newOrderLine idA .buy 100 5 idA), [(1, .ack idA.bytes (exchangeId 1))]),
          (.line 2 (newOrderLine idA .sell 99 3 idA), [(2, .ack idA.bytes (exchangeId 2)),
            (1, .fill (exchangeId 1) idA.bytes 3 100 2),
            (2, .fill (exchangeId 2) idA.bytes 3 100 0)]),
          (.line 1 (cancelLine idA idA), [(1, .cancelAck idA.bytes (exchangeId 1))])] ∧
        (s.history.drop 3).map Prod.fst = [.line 1 (cancelLine idA idA)]) = true :=
    exists_session (by decide +kernel)
  obtain ⟨hlt, htake, hlast⟩ := of_decide_eq_true hp
  obtain ⟨⟨ev, m⟩, hdrop, rfl⟩ := List.map_eq_singleton_iff.mp hlast
  have hH := (List.take_append_drop 3 s.history).symm
  rw [htake, hdrop] at hH
  obtain ⟨hnodup, hlife⟩ := order_lifecycle hs hlt
  obtain ⟨_, _, _, q, -, -, ⟨fs, cs, habout, -, hcs⟩, -, hlate⟩ :=
    hlife [] _ _ _ 1 idA.bytes (exchangeId 1) hH (List.mem_singleton_self _)
  have hcancel : IsCancel (cancelLine idA idA) idA.bytes := by constructor <;> decide +kernel
  have hreply := (hlate [_, _] _ m [] rfl hcancel fun x hx => ?_).2 (by simp [sentIn])
  · refine ⟨s, fs, m, hs, hnodup, ?_, hdrop, hreply⟩
    rcases hcs with rfl | ⟨rfl, -⟩
    · -- the cancellation is among the messages about the order
      have hmem : (1, .cancelAck idA.bytes (exchangeId 1)) ∈ about (exchangeId 1) s.messages :=
        mem_about.mpr ⟨by simp [Session.messages, hH], rfl⟩
      rw [habout] at hmem
      simp at hmem
    · exact habout
  · simp only [List.mem_cons, List.not_mem_nil, or_false] at hx
    rcases hx with rfl | rfl <;> exact Event.noConfusion

end MarketMakerOps.Exchange
