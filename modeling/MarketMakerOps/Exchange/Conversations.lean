import MarketMakerOps.Exchange.Answers
import MarketMakerOps.Exchange.FrameLimit
import MarketMakerOps.Exchange.PrivateNames

/-!
What a client that keeps its ids apart is told about each of its orders.

* `Tidy`: requests in good form; no id is ordered twice, and what is cancelled was ordered before
  and is cancelled once;
* `Standing`, `Closed`: what has been said about an order, before its cancel and after;
* `record_kept`: a record outlives all calls but its own cancel;
* `conversations`: there is nothing else to be said, whatever other clients do.
-/

namespace MarketMakerOps.Exchange

open Decimal Engine Fallible

variable {cap softCap : Nat} {build : Build}

/-! ## Requests -/

/-- A request to trade in good form, except that its price may be beyond the venue's. -/
structure IsOrder (payload cid : Bytes) : Prop where
  readable : (parseInbound payload).parseError = none
  type : (parseInbound payload).type = .newOrder
  names : (parseInbound payload).clientOrderId = some cid
  symbol : (parseInbound payload).symbol = some kSymbol
  onSide : ∃ side, (parseInbound payload).side = some side
  forQty : ∃ q, (parseInbound payload).qty = some q ∧ q ≠ 0

def Ordered (lines : List Bytes) (cid : Bytes) : Prop := ∃ payload ∈ lines, IsOrder payload cid

def Withdrawn (lines : List Bytes) (cid : Bytes) : Prop := ∃ payload ∈ lines, IsCancel payload cid

/-- Requests in the order they were made. -/
inductive Tidy : List Bytes → Prop
  | nil : Tidy []
  | order {lines : List Bytes} {payload cid : Bytes} (rest : Tidy lines)
      (order : IsOrder payload cid) (fresh : ¬Ordered lines cid) : Tidy (lines ++ [payload])
  | cancel {lines : List Bytes} {payload cid : Bytes} (rest : Tidy lines)
      (cancel : IsCancel payload cid) (ordered : Ordered lines cid)
      (once : ¬Withdrawn lines cid) : Tidy (lines ++ [payload])

section Requests

variable {lines : List Bytes} {payload cid cid' : Bytes}

theorem IsOrder.not_isCancel (h : IsOrder payload cid) : ¬IsCancel payload cid' := by
  intro hc
  have htype := h.type
  rw [hc.type] at htype
  cases htype

theorem IsOrder.names_eq (h : IsOrder payload cid) (h' : IsOrder payload cid') : cid' = cid := by
  have hnames := h.names
  rw [h'.names] at hnames
  exact Option.some.inj hnames

theorem IsCancel.names_eq (h : IsCancel payload cid) (h' : IsCancel payload cid') : cid' = cid := by
  have hnames := h.names
  rw [h'.names] at hnames
  exact Option.some.inj hnames

theorem ordered_snoc :
    Ordered (lines ++ [payload]) cid ↔ Ordered lines cid ∨ IsOrder payload cid := by
  simp [Ordered, or_and_right, exists_or]

theorem withdrawn_snoc :
    Withdrawn (lines ++ [payload]) cid ↔ Withdrawn lines cid ∨ IsCancel payload cid := by
  simp [Withdrawn, or_and_right, exists_or]

/-- Nothing is cancelled that was not ordered. -/
theorem Tidy.ordered (h : Tidy lines) (hw : Withdrawn lines cid) : Ordered lines cid := by
  induction h with
  | nil =>
    obtain ⟨payload, hmem, -⟩ := hw
    cases hmem
  | order rest order fresh ih =>
    rcases withdrawn_snoc.mp hw with hw | hw
    · exact ordered_snoc.mpr (Or.inl (ih hw))
    · exact absurd hw order.not_isCancel
  | cancel rest cancel ordered once ih =>
    rcases withdrawn_snoc.mp hw with hw | hw
    · exact ordered_snoc.mpr (Or.inl (ih hw))
    · rw [cancel.names_eq hw]
      exact ordered_snoc.mpr (Or.inl ordered)

/-- The last request, and those before it. -/
theorem Tidy.last (h : Tidy (lines ++ [payload])) : Tidy lines ∧ ∃ cid,
    (IsOrder payload cid ∧ ¬Ordered lines cid) ∨
      (IsCancel payload cid ∧ Ordered lines cid ∧ ¬Withdrawn lines cid) := by
  generalize hl : lines ++ [payload] = l at h
  cases h with
  | nil => exact absurd hl (by simp)
  | order rest order fresh =>
    obtain ⟨rfl, hp⟩ := List.append_inj' hl rfl
    cases hp
    exact ⟨rest, _, Or.inl ⟨order, fresh⟩⟩
  | cancel rest cancel ordered once =>
    obtain ⟨rfl, hp⟩ := List.append_inj' hl rfl
    cases hp
    exact ⟨rest, _, Or.inr ⟨cancel, ordered, once⟩⟩

end Requests

/-! ## Records -/

section Records

variable {v v' : Venue cap} {ev : Event} {conn : ConnId} {cid : Bytes} {r : ClientRecord}

/-- The callback marks records, and nothing else of them. -/
theorem exists_record_afterTrades {T : Tables} (h : T.record conn cid = some r) (ts : List Trade) :
    ∃ r', (T.afterTrades ts).record conn cid = some r' ∧ r'.exchangeId = r.exchangeId ∧
      (r.state ≠ .cancelled → r'.state ≠ .cancelled) := by
  have hleg : ∀ (T : Tables) (id : UInt64) (p q : UInt32) (r : ClientRecord),
      T.record conn cid = some r → ∃ r', (T.routeFill id p q).record conn cid = some r' ∧
        r'.exchangeId = r.exchangeId ∧ (r.state ≠ .cancelled → r'.state ≠ .cancelled) := by
    intro T id p q r h
    cases hl : T.live id with
    | none => exact ⟨r, by rwa [Tables.routeFill_of_none hl], rfl, fun hst => hst⟩
    | some lo =>
      rw [(Tables.routeFill_spec hl).2.2, h]
      split
      · exact ⟨_, rfl, rfl, fun _ => (show OrderState.filled ≠ .cancelled by decide)⟩
      · exact ⟨r, rfl, rfl, fun hst => hst⟩
  induction ts generalizing T r with
  | nil => exact ⟨r, h, rfl, fun hst => hst⟩
  | cons t ts ih =>
    obtain ⟨r₁, h₁, he₁, hst₁⟩ := hleg { T with lastTradeTicks := t.price, hasLastTrade := true }
      t.buyOrderId t.price t.quantity r h
    obtain ⟨r₂, h₂, he₂, hst₂⟩ := hleg _ t.sellOrderId t.price t.quantity r₁ h₁
    obtain ⟨r₃, h₃, he₃, hst₃⟩ := ih h₂
    exact ⟨r₃, h₃, he₃.trans (he₂.trans he₁), fun hst => hst₃ (hst₂ (hst₁ hst))⟩

/-- A record outlives all calls but its own cancel, as long as its connection stays. -/
theorem record_kept (hsound : v.book.Sound) (hv : v.handle build ev = .ok v')
    (hr : v.tables.record conn cid = some r) (hdrop : ev ≠ .drop conn)
    (hcancel : ∀ payload, ev = .line conn payload → ¬IsCancel payload cid) :
    ∃ r', v'.tables.record conn cid = some r' ∧ r'.exchangeId = r.exchangeId ∧
      (r.state ≠ .cancelled → r'.state ≠ .cancelled) := by
  obtain ⟨a, hrep, hwf⟩ := hsound
  cases handled_ok hv with
  | quiet result _ _ _ _ _ record =>
    cases result
    exact ⟨r, (record conn cid).trans hr, rfl, fun hst => hst⟩
  | @accept conn' payload cid' side p q _ accepts result =>
    obtain ⟨ts, -, -, -, hT, -⟩ := submit_spec hrep hwf result.symm
    rw [hT]
    refine exists_record_afterTrades ?_ ts
    rw [entered_record, if_neg, hr]
    rintro ⟨rfl, rfl⟩
    rw [accepts.fresh] at hr
    cases hr
  | @cancel conn' payload cid' _ _ isCancel _ _ result =>
    obtain ⟨book, -, hv'⟩ := bind_eq_ok.mp result.symm
    cases hv'
    refine ⟨r, ?_, rfl, fun hst => hst⟩
    rw [cancelled_record, if_neg, hr]
    rintro ⟨rfl, rfl⟩
    exact hcancel payload rfl isCancel
  | @drop conn' _ result =>
    obtain ⟨-, -, hrecord, -⟩ := post_of_ok (dropIn_spec build conn' (v.owned conn') hrep hwf)
      result.symm
    refine ⟨r, ?_, rfl, fun hst => hst⟩
    rw [hrecord, if_neg, hr]
    rintro rfl
    exact hdrop rfl

/-- Only a request that names an order records it. -/
theorem record_elsewhere (hsound : v.book.Sound) (hv : v.handle build ev = .ok v')
    (hnone : v.tables.record conn cid = none)
    (hother : ∀ payload, ev = .line conn payload →
      (parseInbound payload).clientOrderId.getD [] ≠ cid) : v'.tables.record conn cid = none := by
  cases hr : v'.tables.record conn cid with
  | none => rfl
  | some r =>
    obtain ⟨payload, side, p, q, hev, hnew⟩ := record_made hsound hv hnone hr
    exact absurd (by rw [hnew.names]; rfl) (hother payload hev)

end Records

/-! ## Conversations -/

/-- Why an order in good form is refused under a new id. -/
inductive Refusable (lines : List Bytes) (cid : Bytes) : RejectReason → Prop
  | badPrice {payload : Bytes} (mem : payload ∈ lines) (order : IsOrder payload cid)
      (price : (parseInbound payload).priceTicks = none) : Refusable lines cid .badPrice
  | venueFull : Refusable lines cid .venueFull
  | selfMatch : Refusable lines cid .selfMatch

/-- What has been said about an order that is not cancelled. -/
inductive Standing (lines : List Bytes) (T : Tables) (conn : ConnId) (cid : Bytes) :
    List Outbound → Prop
  | accepted (r : ClientRecord) (record : T.record conn cid = some r)
      (state : r.state ≠ .cancelled) :
      Standing lines T conn cid [.ack cid r.exchangeId]
  | refused (reason : RejectReason) (why : Refusable lines cid reason)
      (record : T.record conn cid = none) : Standing lines T conn cid [.reject cid reason]

/-- What has been said about an order that was cancelled. -/
inductive Closed (lines : List Bytes) (cid : Bytes) : List Outbound → Prop
  | cancelled (e : Bytes) : Closed lines cid [.ack cid e, .cancelAck cid e]
  | tooLate (e : Bytes) : Closed lines cid [.ack cid e, .cancelReject cid .alreadyFilled]
  | refused (reason : RejectReason) (why : Refusable lines cid reason) :
      Closed lines cid [.reject cid reason, .cancelReject cid .notFound]

section More

variable {lines lines' : List Bytes} {T T' : Tables} {conn : ConnId} {cid : Bytes}
  {told : List Outbound} {reason : RejectReason}

theorem Refusable.mono (h : Refusable lines cid reason) (hl : ∀ p ∈ lines, p ∈ lines') :
    Refusable lines' cid reason := by
  cases h with
  | badPrice mem order price => exact .badPrice (hl _ mem) order price
  | venueFull => exact .venueFull
  | selfMatch => exact .selfMatch

theorem Standing.mono (h : Standing lines T conn cid told) (hl : ∀ p ∈ lines, p ∈ lines')
    (hr : T'.record conn cid = T.record conn cid) : Standing lines' T' conn cid told := by
  cases h with
  | accepted r record state => exact .accepted r (hr.trans record) state
  | refused reason why record => exact .refused reason (why.mono hl) (hr.trans record)

theorem Closed.mono (h : Closed lines cid told) (hl : ∀ p ∈ lines, p ∈ lines') :
    Closed lines' cid told := by
  cases h with
  | cancelled e => exact .cancelled e
  | tooLate e => exact .tooLate e
  | refused reason why => exact .refused reason (why.mono hl)

end More

/-- The replies to a connection that name an order, fills aside. -/
def Session.told (s : Session cap) (conn : ConnId) (cid : Bytes) : List Outbound :=
  (s.answersTo conn).filter fun m => m.clientOrderId = cid

section Calls

variable {v v' : Venue cap} {conn : ConnId} {payload cid : Bytes} {r : ClientRecord}

/-- The first answer about an order. -/
theorem IsOrder.answer (h : IsOrder payload cid) (fresh : v.tables.record conn cid = none)
    (hsound : v.book.Sound) (hsent : v.tables.sent = [])
    (hv : v.handle build (.line conn payload) = .ok v') :
    Standing [payload] v'.tables conn cid (answersIn conn v'.tables.sent) := by
  obtain ⟨q, hq, hpos⟩ := h.forQty
  obtain ⟨side, hside⟩ := h.onSide
  have hrefused : ∀ reason : RejectReason, Refusable [payload] cid reason →
      v'.tables.sent = [(conn, .reject cid reason)] →
      Standing [payload] v'.tables conn cid (answersIn conn v'.tables.sent) := by
    intro reason hreason hmsgs
    rw [hmsgs, answersIn_cons rfl fun m hm => (by cases hm), if_pos rfl]
    refine .refused reason hreason ?_
    cases handled_ok hv with
    | quiet result _ _ _ _ _ record =>
      cases result
      exact (record conn cid).trans fresh
    | accept _ result =>
      obtain ⟨fills, hack, -⟩ := submit_sent hsound hsent result.symm
      rw [hmsgs] at hack
      cases (List.cons.inj hack).1
    | cancel isCancel => exact absurd isCancel h.not_isCancel
  cases hp : (parseInbound payload).priceTicks with
  | none =>
    refine hrefused .badPrice (.badPrice List.mem_cons_self h hp) ?_
    simp only [Venue.handle, Venue.handleLine, Venue.handleMessage, h.readable, h.type,
      Venue.handleNewOrder, h.names, h.symbol, hside, hp, if_false, Option.isSome_none,
      Bool.false_eq_true, reduceCtorEq, or_self, ne_eq, not_true_eq_false] at hv
    cases hv
    exact congrArg (· ++ [(conn, Outbound.reject cid .badPrice)]) hsent
  | some p =>
    have hnew : IsNewOrder payload cid side p q :=
      ⟨h.readable, h.type, h.names, h.symbol, hside, hp, hq⟩
    rcases hnew.answers_of_fresh hpos fresh hsound hsent hv with
      ⟨fills, hmsgs, hfills⟩ | ⟨-, hmsgs⟩ | ⟨-, hmsgs⟩
    · rw [hmsgs, answersIn_cons rfl hfills, if_pos rfl]
      cases handled_ok hv with
      | quiet result msgs _ _ _ _ _ sent about =>
        -- an ACK is about an order, which no refusal is
        cases result
        have hack : (conn, Outbound.ack cid (exchangeId v.nextEngineId)) ∈ msgs := by
          rw [hsent, List.nil_append] at sent
          rw [← sent, hmsgs]
          exact List.mem_cons_self
        cases about _ hack
      | accept accepts result =>
        obtain ⟨a, hrep, hwf⟩ := hsound
        obtain ⟨ts, -, -, -, hT, -⟩ := submit_spec hrep hwf result.symm
        obtain rfl := h.names_eq
          ⟨accepts.readable, accepts.type, accepts.names, accepts.symbol, ⟨_, accepts.onSide⟩,
            ⟨_, accepts.forQty, accepts.positive⟩⟩
        obtain ⟨r, hr, he, hst⟩ := exists_record_afterTrades
          ((entered_record v conn _ _ _ _ conn _).trans (if_pos ⟨rfl, rfl⟩)) ts
        have hstanding : Standing [payload] _ conn _ [.ack _ r.exchangeId] :=
          .accepted r hr (hst (show OrderState.resting ≠ .cancelled by decide))
        rw [he] at hstanding
        rw [hT]
        exact hstanding
      | cancel isCancel => exact absurd isCancel h.not_isCancel
    · exact hrefused _ .venueFull hmsgs
    · exact hrefused _ .selfMatch hmsgs

/-- The answer to a cancel closes what was said before. -/
theorem IsCancel.answer (h : IsCancel payload cid) {lines : List Bytes} {told : List Outbound}
    (standing : Standing lines v.tables conn cid told) (hsent : v.tables.sent = [])
    (hv : v.handle build (.line conn payload) = .ok v') :
    Closed lines cid (told ++ answersIn conn v'.tables.sent) := by
  have hcode : v.handle build (.line conn payload) =
      v.handleCancel build conn (parseInbound payload) := by
    simp [Venue.handle, Venue.handleLine, Venue.handleMessage, h.readable, h.type]
  rw [hcode, Venue.handleCancel_eq, h.names] at hv
  have hanswer : ∀ {m : Outbound} {w : Venue cap}, m.isFill = false → w.tables.sent = [(conn, m)] →
      answersIn conn w.tables.sent = [m] := by
    intro m w hm hw
    rw [hw, answersIn_cons hm fun f hf => (by cases hf), if_pos rfl]
  have hsend : ∀ m : Outbound, (v.send conn m).tables.sent = [(conn, m)] := fun m =>
    congrArg (· ++ [(conn, m)]) hsent
  cases standing with
  | refused reason why record =>
    simp only [record] at hv
    cases hv
    rw [hanswer rfl (hsend _)]
    exact .refused reason why
  | accepted r record state =>
    simp only [record] at hv
    cases hst : r.state with
    | filled =>
      simp only [hst] at hv
      cases hv
      rw [hanswer rfl (hsend _)]
      exact .tooLate r.exchangeId
    | cancelled => exact absurd hst state
    | resting =>
      simp only [hst] at hv
      obtain ⟨book, -, hv⟩ := bind_eq_ok.mp hv
      cases hv
      have hmsgs : (v.cancelled conn cid r book).tables.sent =
          [(conn, .cancelAck cid r.exchangeId)] := by
        rw [cancelled_sent, hsent]
        rfl
      rw [hanswer rfl hmsgs]
      exact .cancelled r.exchangeId

/-- An answer names the order its request named. -/
theorem Answers.names {m : Outbound} (h : Answers payload m) :
    m.clientOrderId = (parseInbound payload).clientOrderId.getD [] := by
  unfold Answers at h
  dsimp only at h
  split at h
  · obtain ⟨reason, rfl⟩ := h
    rfl
  · split at h
    · rcases h with ⟨reason, rfl⟩ | ⟨e, rfl⟩ <;> rfl
    · split at h
      · rcases h with ⟨e, rfl⟩ | ⟨reason, rfl⟩ <;> rfl
      · cases h

/-- Calls that do not name an order are not answered about it. -/
theorem answers_elsewhere {ev : Event} (hsound : v.book.Sound) (hsent : v.tables.sent = [])
    (hv : v.handle build ev = .ok v')
    (hother : ∀ payload, ev = .line conn payload →
      (parseInbound payload).clientOrderId.getD [] ≠ cid) :
    (answersIn conn v'.tables.sent).filter (fun m => m.clientOrderId = cid) = [] := by
  cases ev with
  | drop conn' =>
    obtain ⟨a, hrep, hwf⟩ := hsound
    obtain ⟨-, -, -, hsent', -⟩ := post_of_ok (dropIn_spec build conn' (v.owned conn') hrep hwf) hv
    rw [hsent', hsent]
    rfl
  | line conn' payload =>
    have hanswered := handle_answers hsound hsent hv
    generalize v'.tables.sent = msgs at hanswered
    cases hanswered with
    | silent silent => rfl
    | asked m fills asked answer notFill rest =>
      rw [answersIn_cons notFill rest]
      split
      · next hconn =>
        subst hconn
        have hne := hother payload rfl
        rw [← answer.names] at hne
        exact List.filter_cons_of_neg (by simpa using hne)
      · rfl

end Calls

/-! ## Runs -/

/-- Where the conversation about an order stands. -/
structure Conversing (s : Session cap) (conn : ConnId) (cid : Bytes) : Prop where
  silent : ¬Ordered (s.linesOf conn) cid →
    s.told conn cid = [] ∧ s.venue.tables.record conn cid = none
  standing : Ordered (s.linesOf conn) cid → ¬Withdrawn (s.linesOf conn) cid →
    Standing (s.linesOf conn) s.venue.tables conn cid (s.told conn cid)
  closed : Withdrawn (s.linesOf conn) cid → Closed (s.linesOf conn) cid (s.told conn cid)

section Runs

variable {s s' : Session cap} {ev : Event} {conn : ConnId} {cid payload : Bytes}

theorem Event.lineOf_eq_some : ev.lineOf conn = some payload ↔ ev = .line conn payload := by
  cases ev with
  | drop conn' => exact ⟨fun h => (by cases h), fun h => (by cases h)⟩
  | line conn' payload' =>
    by_cases hconn : conn' = conn <;> simp [Event.lineOf, hconn]

theorem Session.told_of_step (h : s.step build ev = .ok s') : s'.told conn cid =
    s.told conn cid ++
      (answersIn conn s'.venue.tables.sent).filter fun m => m.clientOrderId = cid := by
  rw [told, answersTo_of_step h, List.filter_append]
  rfl

theorem told_of_names {msgs : List Outbound} (h : ∀ m ∈ msgs, m.clientOrderId = cid) :
    msgs.filter (fun m => m.clientOrderId = cid) = msgs :=
  List.filter_eq_self.mpr fun m hm => decide_eq_true (h m hm)

/-- A call that does not name the order. -/
theorem Conversing.elsewhere (h : Conversing s conn cid) (hsound : s.venue.book.Sound)
    (hstep : s.step build ev = .ok s') (hdrop : ev ≠ .drop conn)
    (hother : ∀ payload, ev = .line conn payload →
      (parseInbound payload).clientOrderId.getD [] ≠ cid) : Conversing s' conn cid := by
  -- none of the requests that name it is new
  have hlines : ∀ P : Bytes → Prop,
      (∀ payload, P payload → (parseInbound payload).clientOrderId.getD [] = cid) →
        ((∃ payload ∈ s'.linesOf conn, P payload) ↔ ∃ payload ∈ s.linesOf conn, P payload) := by
    intro P hP
    rw [Session.linesOf_of_step hstep]
    constructor
    · rintro ⟨payload, hmem, hp⟩
      rcases List.mem_append.mp hmem with hmem | hmem
      · exact ⟨payload, hmem, hp⟩
      · refine absurd (hP payload hp) (hother payload ?_)
        exact Event.lineOf_eq_some.mp (Option.mem_toList.mp hmem)
    · rintro ⟨payload, hmem, hp⟩
      exact ⟨payload, List.mem_append_left _ hmem, hp⟩
  have hmore : ∀ p ∈ s.linesOf conn, p ∈ s'.linesOf conn := by
    rw [Session.linesOf_of_step hstep]
    exact fun p hp => List.mem_append_left _ hp
  have hordered := hlines (IsOrder · cid) fun payload hp => by rw [hp.names]; rfl
  have hwithdrawn := hlines (IsCancel · cid) fun payload hp => by rw [hp.names]; rfl
  have htold : s'.told conn cid = s.told conn cid ++ _ := Session.told_of_step hstep
  obtain ⟨v', hv', rfl⟩ := Session.step_eq_ok.mp hstep
  rw [answers_elsewhere (v := s.venue.cleared) hsound rfl hv' hother, List.append_nil] at htold
  refine ⟨fun hnone => ?_, fun hsome hlive => ?_, fun hgone => ?_⟩
  · obtain ⟨hsilent, hrecord⟩ := h.silent (mt hordered.mpr hnone)
    exact ⟨htold.trans hsilent, record_elsewhere (v := s.venue.cleared) hsound hv' hrecord hother⟩
  · rw [htold]
    have hstanding := h.standing (hordered.mp hsome) (mt hwithdrawn.mpr hlive)
    generalize s.told conn cid = told at hstanding
    cases hstanding with
    | accepted r record state =>
      obtain ⟨r', hr', he, hst⟩ := record_kept (v := s.venue.cleared) hsound hv' record hdrop
        fun payload hev hcancel => hother payload hev (by rw [hcancel.names]; rfl)
      rw [← he]
      exact .accepted r' hr' (hst state)
    | refused reason why record =>
      exact .refused reason (why.mono hmore)
        (record_elsewhere (v := s.venue.cleared) hsound hv' record hother)
  · rw [htold]
    exact (h.closed (hwithdrawn.mp hgone)).mono hmore

/-- A request of the connection. -/
theorem Conversing.request (h : Conversing s conn cid) (hsound : s.venue.book.Sound)
    (hstep : s.step build (.line conn payload) = .ok s')
    (htidy : Tidy (s.linesOf conn ++ [payload])) : Conversing s' conn cid := by
  obtain ⟨hrest, cid', hlast⟩ := htidy.last
  have hlines : s'.linesOf conn = s.linesOf conn ++ [payload] := by
    rw [Session.linesOf_of_step hstep, Event.lineOf, if_pos rfl]
    rfl
  have htold : s'.told conn cid = s.told conn cid ++ _ := Session.told_of_step hstep
  by_cases hcid : cid' = cid
  · subst hcid
    obtain ⟨v', hv', rfl⟩ := Session.step_eq_ok.mp hstep
    rcases hlast with ⟨horder, hfresh⟩ | ⟨hcancel, hordered, honce⟩
    · obtain ⟨hsilent, hrecord⟩ := h.silent hfresh
      have hstanding := horder.answer (v := s.venue.cleared) hrecord hsound rfl hv'
      have hnames : ∀ m ∈ answersIn conn v'.tables.sent, m.clientOrderId = cid' := by
        generalize answersIn conn v'.tables.sent = msgs at hstanding
        cases hstanding <;> simp [Outbound.clientOrderId]
      rw [hsilent, List.nil_append, told_of_names hnames] at htold
      have hlive : ¬Withdrawn (s.linesOf conn ++ [payload]) cid' := by
        rw [withdrawn_snoc]
        exact not_or.mpr ⟨fun hw => hfresh (hrest.ordered hw), horder.not_isCancel⟩
      refine ⟨fun hnone => ?_, fun _ _ => ?_, fun hgone => ?_⟩
      · exact absurd (hlines ▸ ordered_snoc.mpr (Or.inr horder)) hnone
      · rw [htold, hlines]
        exact hstanding.mono (fun p hp => List.mem_append_right _ hp) rfl
      · exact absurd (hlines ▸ hgone) hlive
    · have hclosed := hcancel.answer (v := s.venue.cleared)
        ((h.standing hordered honce).mono (fun _ hp => hp) rfl) rfl hv'
      have hnames : ∀ m ∈ answersIn conn v'.tables.sent, m.clientOrderId = cid' := by
        intro m hm
        generalize hl : s.told conn cid' ++ answersIn conn v'.tables.sent = msgs at hclosed
        have hmem : m ∈ msgs := hl ▸ List.mem_append_right _ hm
        cases hclosed <;> rcases List.mem_pair.mp hmem with rfl | rfl <;> rfl
      rw [told_of_names hnames] at htold
      refine ⟨fun hnone => ?_, fun _ hlive => ?_, fun _ => ?_⟩
      · exact absurd (hlines ▸ ordered_snoc.mpr (Or.inl hordered)) hnone
      · exact absurd (hlines ▸ withdrawn_snoc.mpr (Or.inr hcancel)) hlive
      · rw [htold, hlines]
        exact hclosed.mono fun p hp => List.mem_append_left _ hp
  · refine h.elsewhere hsound hstep (fun he => by cases he) fun payload' he => ?_
    obtain ⟨-, rfl⟩ := Event.line.inj he
    rcases hlast with ⟨horder, -⟩ | ⟨hcancel, -⟩
    · rw [horder.names]
      exact hcid
    · rw [hcancel.names]
      exact hcid

theorem Conversing.start (v : Venue cap) (hv : Venue.new cap softCap = .ok v) :
    Conversing (Session.start v) conn cid := by
  obtain ⟨b, -, hv⟩ := bind_eq_ok.mp hv
  cases hv
  refine ⟨fun _ => ⟨rfl, rfl⟩, fun hordered => ?_, fun hgone => ?_⟩
  · obtain ⟨payload, hmem, -⟩ := hordered
    cases hmem
  · obtain ⟨payload, hmem, -⟩ := hgone
    cases hmem

theorem Session.conversing {events : List Event} (h : session build cap softCap events = .ok s)
    (hstay : ∀ x ∈ s.history, x.1 ≠ .drop conn) (htidy : Tidy (s.linesOf conn)) (cid : Bytes) :
    Conversing s conn cid := by
  refine (session_inv (fun s => (∃ events, session build cap softCap events = .ok s) ∧
    ((∀ x ∈ s.history, x.1 ≠ .drop conn) → Tidy (s.linesOf conn) → Conversing s conn cid))
    (fun v hv => ?_) (fun s ev s' hs hstep => ?_) h).2 hstay htidy
  · exact ⟨⟨[], by rw [session, hv]; rfl⟩, fun _ _ => .start v hv⟩
  · obtain ⟨⟨events, hevents⟩, hconv⟩ := hs
    refine ⟨⟨_, session_snoc hevents hstep⟩, fun hstay htidy => ?_⟩
    obtain ⟨hsound, -⟩ := session_size hevents
    rw [Session.history_of_step hstep, List.forall_mem_append] at hstay
    rw [Session.linesOf_of_step hstep] at htidy
    have hdrop : ev ≠ .drop conn := hstay.2 _ (List.mem_singleton_self _)
    cases hline : ev.lineOf conn with
    | none =>
      rw [hline, Option.toList_none, List.append_nil] at htidy
      refine (hconv hstay.1 htidy).elsewhere hsound hstep hdrop fun payload hev => ?_
      rw [Event.lineOf_eq_some.mpr hev] at hline
      cases hline
    | some payload =>
      rw [hline] at htidy
      obtain rfl := Event.lineOf_eq_some.mp hline
      exact (hconv hstay.1 htidy.last.1).request hsound hstep htidy

/-- Whatever other clients do: to a connection that stays and is tidy the venue says nothing of an
order it has not sent; of one it has not cancelled that it is accepted, or why it is refused, and
the tables agree; and of one it has cancelled that, and then that it is cancelled, already filled,
or not there because it was refused. Fills aside, it says nothing else. -/
theorem conversations {events : List Event} (h : session build cap softCap events = .ok s)
    (hstay : .drop conn ∉ events) (htidy : Tidy (s.linesOf conn)) (cid : Bytes) :
    (¬Ordered (s.linesOf conn) cid → s.told conn cid = []) ∧
    (Ordered (s.linesOf conn) cid → ¬Withdrawn (s.linesOf conn) cid →
      Standing (s.linesOf conn) s.venue.tables conn cid (s.told conn cid)) ∧
    (Withdrawn (s.linesOf conn) cid → Closed (s.linesOf conn) cid (s.told conn cid)) := by
  obtain ⟨v, hv, hrun⟩ := bind_eq_ok.mp h
  obtain ⟨H, hH, hevents⟩ := Session.history_of_run hrun
  have hconv := Session.conversing h (fun x hx hdrop => ?_) htidy cid
  · exact ⟨fun hnone => (hconv.silent hnone).1, hconv.standing, hconv.closed⟩
  · rw [hH] at hx
    have hmem := List.mem_map_of_mem (f := Prod.fst) hx
    rw [List.map_append, hevents, hdrop] at hmem
    exact hstay hmem

end Runs

/-- A bid for five, sold three of, and cancelled. -/
def bidAndCancel : List Event :=
  [.line 1 (newOrderLine idA .buy 100 5 idA), .line 2 (newOrderLine idA .sell 99 3 idA),
    .line 1 (cancelLine idA idA)]

theorem conversations_bid_and_cancel : ∃ s : Session 4,
    session .debug 4 3 bidAndCancel = .ok s ∧
      Closed (s.linesOf 1) idA.bytes (s.told 1 idA.bytes) := by
  have horder : IsOrder (newOrderLine idA .buy 100 5 idA) idA.bytes := by
    refine ⟨?_, ?_, ?_, ?_, ⟨.buy, ?_⟩, ⟨5, ?_, by decide⟩⟩ <;> decide +kernel
  have hcancel : IsCancel (cancelLine idA idA) idA.bytes := by
    constructor <;> decide +kernel
  obtain ⟨s, hs, hlines⟩ : ∃ s : Session 4, session .debug 4 3 bidAndCancel = .ok s ∧
      decide (s.linesOf 1 = [newOrderLine idA .buy 100 5 idA, cancelLine idA idA]) = true :=
    exists_session (by decide +kernel)
  have hlines := of_decide_eq_true hlines
  have hnone : ¬Ordered [] idA.bytes := fun ⟨_, hmem, _⟩ => List.not_mem_nil hmem
  have hone : Tidy [newOrderLine idA .buy 100 5 idA] := Tidy.nil.order horder hnone
  have honce : ¬Withdrawn [newOrderLine idA .buy 100 5 idA] idA.bytes := by
    rintro ⟨payload, hmem, hw⟩
    rw [List.mem_singleton.mp hmem] at hw
    exact horder.not_isCancel hw
  have htidy : Tidy (s.linesOf 1) := by
    rw [hlines]
    exact hone.cancel hcancel ⟨_, List.mem_cons_self, horder⟩ honce
  obtain ⟨-, -, hclosed⟩ := conversations hs (by decide) htidy idA.bytes
  refine ⟨s, hs, hclosed ?_⟩
  rw [hlines]
  exact ⟨_, List.mem_cons_of_mem _ List.mem_cons_self, hcancel⟩

end MarketMakerOps.Exchange
