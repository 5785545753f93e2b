import MarketMakerOps.Exchange.Disconnect
import MarketMakerOps.Exchange.Lifecycle
import MarketMakerOps.Exchange.Replies

/-!
Client order ids are names private to a connection.

* `Private A v ev v'`: what the call `ev` cannot do to the orders of `A`;
* `Reached.keepsPrivate`: no call can, until the engine ids come round;
* `client_ids_private`: renaming the ids of the other connections does not show to
  `A`, and no use of an id elsewhere reaches the orders of `A`;
* `shared_id_after_wrap`: once the engine ids have come round, a CANCEL under the
  same client order id does.
-/

namespace MarketMakerOps.Exchange

open Decimal Engine Fallible

variable {cap softCap n : Nat} {build : Build}

/-- A call keeps off the live orders of `A`: a CANCEL of another connection leaves them alone, and
their fills go to `A`. -/
structure Private (A : ConnId) (v : Venue cap) (ev : Event) (v' : Venue cap) : Prop where
  live : ∀ B payload cid, B ≠ A → ev = .line B payload → IsCancel payload cid →
    ∀ id lo, lo.owner = A → (v'.tables.live id = some lo ↔ v.tables.live id = some lo)
  record : ∀ B payload cid, B ≠ A → ev = .line B payload → IsCancel payload cid →
    ∀ cid, v'.tables.record A cid = v.tables.record A cid
  book : ∀ B payload cid, B ≠ A → ev = .line B payload → IsCancel payload cid → ∀ side,
    ((v'.book.resting side).filter fun o => o.participantId = A).map Order.unlinked =
      ((v.book.resting side).filter fun o => o.participantId = A).map Order.unlinked
  fill : ∀ id lo, v.tables.live id = some lo → lo.owner = A → ∀ B cid q p left,
    (B, Outbound.fill lo.exchangeId cid q p left) ∈ v'.tables.sent →
      B = A ∧ cid = lo.clientOrderId
  ownFill : ∀ cid e, (A, Outbound.ack cid e) ∈ v'.tables.sent → ∀ B cid' q p left,
    (B, Outbound.fill e cid' q p left) ∈ v'.tables.sent → B = A ∧ cid' = cid

/-- A NEW_ORDER of `A` is refused as a duplicate for a record of `A` only, and only a NEW_ORDER of
`A` makes one. -/
structure OwnRecords (A : ConnId) (v : Venue cap) (ev : Event) (v' : Venue cap) : Prop where
  duplicate : ∀ cid, (A, Outbound.reject cid .duplicateClientOrderId) ∈ v'.tables.sent →
    ∃ payload r, ev = .line A payload ∧ v.tables.record A cid = some r
  made : ∀ cid r, v.tables.record A cid = none → v'.tables.record A cid = some r →
    ∃ payload side p q, ev = .line A payload ∧ IsNewOrder payload cid side p q

/-! ## Records -/

section Records

variable {v v' : Venue cap} {ev : Event} {c : ConnId}

theorem record_afterTrades {T : Tables} {c : ConnId} {cid : Bytes} (h : T.record c cid = none)
    (ts : List Trade) : (T.afterTrades ts).record c cid = none := by
  have hleg : ∀ (T : Tables) (id : UInt64) (p q : UInt32), T.record c cid = none →
      (T.routeFill id p q).record c cid = none := by
    intro T id p q h
    cases hl : T.live id with
    | none => rwa [Tables.routeFill_of_none hl]
    | some lo =>
      rw [(Tables.routeFill_spec hl).2.2, h]
      split <;> rfl
  induction ts generalizing T with
  | nil => exact h
  | cons t ts ih => exact ih (hleg _ _ _ _ (hleg _ _ _ _ h))

/-- Only an accepted NEW_ORDER makes a record. -/
theorem record_made (hsound : v.book.Sound) (hv : v.handle build ev = .ok v') {cid : Bytes}
    (hnone : v.tables.record c cid = none) {r : ClientRecord}
    (hr : v'.tables.record c cid = some r) :
    ∃ payload side p q, ev = .line c payload ∧ IsNewOrder payload cid side p q := by
  obtain ⟨a, hrep, hwf⟩ := hsound
  cases handled_ok hv with
  | quiet result _ _ _ _ _ record =>
    cases result
    rw [record, hnone] at hr
    cases hr
  | @accept c' payload cid' side p q _ accepts result =>
    obtain ⟨ts, -, -, -, hT, -⟩ := submit_spec hrep hwf result.symm
    by_cases hkey : c = c' ∧ cid = cid'
    · obtain ⟨rfl, rfl⟩ := hkey
      exact ⟨payload, side, p, q, rfl, accepts.toIsNewOrder⟩
    · have hentered : (v.entered c' cid' side p q).record c cid = none := by
        rw [entered_record, if_neg hkey, hnone]
      rw [hT, record_afterTrades hentered] at hr
      cases hr
  | cancel _ record _ result =>
    obtain ⟨book, -, hv'⟩ := bind_eq_ok.mp result.symm
    cases hv'
    rw [cancelled_record] at hr
    split at hr
    · next hkey =>
      rw [hkey.1, hkey.2, record] at hnone
      cases hnone
    · rw [hnone] at hr
      cases hr
  | @drop c' _ result =>
    obtain ⟨-, -, hrecord, -⟩ := post_of_ok (dropIn_spec build c' (v.owned c') hrep hwf) result.symm
    rw [hrecord, hnone] at hr
    split at hr <;> cases hr

/-- A duplicate is refused to the connection that holds the record. -/
theorem duplicate_refused (hsound : v.book.Sound) (hsent : v.tables.sent = []) {payload : Bytes}
    (hv : v.handle build (.line c payload) = .ok v') {A : ConnId} {cid : Bytes}
    (hm : (A, Outbound.reject cid .duplicateClientOrderId) ∈ v'.tables.sent) :
    A = c ∧ ∃ r, v.tables.record c cid = some r := by
  cases handled_ok hv with
  | quiet result msgs _ _ _ _ _ sent _ reply =>
    cases result
    rw [sent, hsent, List.nil_append] at hm
    cases reply with
    | heartbeat => cases hm
    | malformed _ _ _ unreadable =>
      -- the reply to what cannot be read gives another reason
      rw [Venue.handle, Venue.handleLine, Venue.handleMessage, if_pos unreadable] at hv
      have hv' := Except.ok.inj hv
      rw [← hv'] at sent
      have hreply : v.tables.sent ++ [(c, .reject _ .malformed)] = v.tables.sent ++ _ := sent
      rw [← List.append_cancel_left hreply, List.mem_singleton] at hm
      cases hm
    | newOrder cid' reason names readable type =>
      cases List.mem_singleton.mp hm
      have hnew : v.handleNewOrder build c (parseInbound payload) = .ok v' := by
        simpa [Venue.handle, Venue.handleLine, Venue.handleMessage, readable, type] using hv
      have hsame : (c, Outbound.reject cid .duplicateClientOrderId) ∈ v'.tables.sent := by
        rw [sent]
        exact List.mem_append_right _ hm
      obtain ⟨cid'', r, hcid, hr⟩ := (newOrder_refused hsound hsent hnew hsame).1 rfl
      rw [hcid, Option.getD_some] at names
      exact ⟨rfl, r, names ▸ hr⟩
    | cancel => cases List.mem_singleton.mp hm
  | accept _ result =>
    obtain ⟨fills, hmsgs, hf⟩ := submit_sent hsound hsent result.symm
    rw [hmsgs] at hm
    rcases List.mem_cons.mp hm with hm | hm
    · cases hm
    · cases hf _ hm
  | cancel _ _ _ result =>
    obtain ⟨book, -, hv'⟩ := bind_eq_ok.mp result.symm
    cases hv'
    rw [cancelled_sent, hsent] at hm
    cases List.mem_singleton.mp hm

end Records

/-! ## Live orders -/

section Live

variable {v v' : Venue cap} {a : PriorityBook cap} {ev : Event} {A : ConnId}

/-- Everything said about an order is said to its owner. -/
theorem Placed.Advance.addressed {o : Placed} {st st' : Placed.Stage} {ev : Event}
    {msgs : List Sent} (h : o.Advance st (ev, msgs) st') {B : ConnId} {cid : Bytes}
    {q p left : UInt32} (hm : (B, Outbound.fill o.exchangeOrderId cid q p left) ∈ msgs) :
    B = o.conn ∧ cid = o.clientOrderId := by
  have habout : (B, Outbound.fill o.exchangeOrderId cid q p left) ∈ about o.exchangeOrderId msgs :=
    mem_about.mpr ⟨hm, rfl⟩
  cases h with
  | fills fs _ _ _ sent =>
    rw [sent] at habout
    obtain ⟨f, -, hf⟩ := List.mem_map.mp habout
    cases hf
    exact ⟨rfl, rfl⟩
  | cancel _ _ sent =>
    rw [sent] at habout
    cases List.mem_singleton.mp habout
  | filled _ sent => rw [sent] at habout; cases habout
  | cancelled _ sent => rw [sent] at habout; cases habout
  | drop sent => rw [sent] at habout; cases habout
  | dropped sent => rw [sent] at habout; cases habout

theorem Synced.cancel_apart (h : Synced n v a) {B : ConnId} (hB : B ≠ A) {payload cid : Bytes}
    (hc : IsCancel payload cid) (hv : v.handle build (.line B payload) = .ok v') :
    (∀ id lo, lo.owner = A → (v'.tables.live id = some lo ↔ v.tables.live id = some lo)) ∧
    (∀ cid, v'.tables.record A cid = v.tables.record A cid) ∧
    ∀ side, ((v'.book.resting side).filter fun o => o.participantId = A).map Order.unlinked =
      ((v.book.resting side).filter fun o => o.participantId = A).map Order.unlinked := by
  cases handled_ok hv with
  | quiet result _ book _ _ live record =>
    cases result
    refine ⟨fun id lo _ => ?_, fun cid => record A cid, fun side => by rw [book]⟩
    rw [Tables.live, Tables.live, live]
  | accept accepts => exact absurd (accepts.type.symm.trans hc.type) (by decide)
  | @cancel _ _ cid' r _ isCancel record resting result =>
    obtain ⟨book, hbook, hv'⟩ := bind_eq_ok.mp result.symm
    cases hv'
    obtain ⟨lo, hlo, howner, -⟩ := h.recorded.resting B cid' r record resting
    have hs := h.cancel record hbook
    refine ⟨fun id lo' hlo' => ?_, fun cid => ?_, fun side => ?_⟩
    · rw [cancelled_live]
      split
      · next hid =>
        rw [hid, hlo, Option.some_inj]
        refine iff_of_false (by simp) ?_
        rintro rfl
        exact hB (howner.symm.trans hlo')
      · rfl
    · rw [cancelled_record, if_neg fun hkey => hB hkey.1.symm]
    · rw [unlinked_filter fun id => id = A, unlinked_filter fun id => id = A,
        hs.rep.resting_eq hs.wf, h.rep.resting_eq h.wf, h.indexed.cancel_queue h.wf,
        List.filter_map, List.filter_map, List.filter_filter]
      refine congrArg _ (List.filter_congr fun e he => ?_)
      -- the cancelled order is not one of `A`
      obtain ⟨lo', hlo', hm⟩ := h.holds.queued side e he
      have hother : e.participantId = A → e.orderId ≠ r.engineId := by
        intro heA heq
        rw [heq, hlo, Option.some_inj] at hlo'
        subst hlo'
        exact hB (howner.symm.trans (hm.owner.trans heA))
      by_cases heA : e.participantId = A
      · simp [Resting.order, heA, hother heA]
      · simp [Resting.order, heA]

theorem Synced.remaining_ne_zero (h : Synced n v a) {id : UInt64} {lo : LiveOrder}
    (hlo : v.tables.live id = some lo) : lo.remaining ≠ 0 := by
  obtain ⟨s, e, he, rfl⟩ := h.holds.live id lo hlo
  obtain ⟨lo', hlo', hm⟩ := h.holds.queued s e he
  rw [hlo, Option.some_inj] at hlo'
  subst hlo'
  rw [hm.remaining]
  exact UInt32.pos_iff_ne_zero.mp (h.wf.positive s e he)

theorem Synced.keepsPrivate (h : Synced n v a) (hsent : v.tables.sent = [])
    (hv : v.handle build ev = .ok v') (hlt : n + acks v'.tables.sent < 2 ^ 64) (A : ConnId) :
    Private A v ev v' := by
  refine ⟨?_, ?_, ?_, ?_, ?_⟩
  · rintro B payload cid hB rfl hc
    exact (h.cancel_apart hB hc hv).1
  · rintro B payload cid hB rfl hc
    exact (h.cancel_apart hB hc hv).2.1
  · rintro B payload cid hB rfl hc
    exact (h.cancel_apart hB hc hv).2.2
  · rintro id lo hlo rfl B cid q p left hm
    obtain ⟨hex, -⟩ := h.recorded.entry id lo hlo
    have hat : Placed.At ⟨lo.owner, lo.clientOrderId, lo.exchangeId, lo.side, lo.priceTicks⟩ id
        v.tables (.live lo.remaining) := ⟨h.remaining_ne_zero hlo, hlo⟩
    obtain ⟨st', hadv, -⟩ := hat.call hex (h.recorded.live_issued hlo).2 h hsent hv hlt
    exact hadv.addressed hm
  · intro cid e hack B cid' q p left hm
    obtain ⟨payload, side, limit, q₀, id, rest, st, -, -, -, -, -, hmsgs, hadv, -⟩ :=
      Placed.At.accepted h hsent hv hlt hack
    rw [hmsgs, List.mem_cons] at hm
    rcases hm with hm | hm
    · cases hm
    · exact hadv.addressed (o := ⟨A, cid, e, side, limit⟩) hm

end Live

section Reached

variable {v v' : Venue cap} {o : Enumeration} {ev : Event}

theorem Reached.ownRecords (h : Reached build cap softCap n v)
    (hv : v.cleared.handleIn build o ev = .ok v') (A : ConnId) : OwnRecords A v ev v' := by
  cases ev with
  | line c payload =>
    have hv : v.cleared.handle build (.line c payload) = .ok v' := hv
    refine ⟨fun cid hm => ?_, fun cid r hnone hr => ?_⟩
    · obtain ⟨rfl, r, hr⟩ := duplicate_refused (v := v.cleared) h.sound rfl hv hm
      exact ⟨payload, r, rfl, hr⟩
    · exact record_made (v := v.cleared) h.sound hv hnone hr
  | drop c =>
    obtain ⟨a, hrep, hwf⟩ := h.sound
    obtain ⟨-, -, hrecord, hsent, -⟩ := post_of_ok (dropIn_spec (v := v.cleared) build c
      (o.order (v.cleared.owned c)) hrep hwf) hv
    refine ⟨fun cid hm => ?_, fun cid r hnone hr => ?_⟩
    · rw [hsent] at hm
      cases hm
    · have hnone : v.cleared.tables.record A cid = none := hnone
      rw [hrecord, hnone] at hr
      split at hr <;> cases hr

theorem Reached.keepsPrivate (h : Reached build cap softCap n v)
    (hv : v.cleared.handleIn build o ev = .ok v') (hlt : n + acks v'.tables.sent < 2 ^ 64)
    (A : ConnId) : Private A v ev v' := by
  obtain ⟨a, hs⟩ := h.synced (lt_of_le_of_lt (Nat.le_add_right _ _) hlt)
  cases ev with
  | line c payload =>
    have hv : v.cleared.handle build (.line c payload) = .ok v' := hv
    have hp := hs.cleared.keepsPrivate rfl hv hlt A
    exact ⟨hp.live, hp.record, hp.book, hp.fill, hp.ownFill⟩
  | drop c =>
    obtain ⟨-, -, -, hsent, -⟩ := post_of_ok (dropIn_spec (v := v.cleared) build c
      (o.order (v.cleared.owned c)) hs.rep hs.wf) hv
    have hnil : v'.tables.sent = [] := hsent
    refine ⟨?_, ?_, ?_, ?_, ?_⟩
    · rintro B payload cid - hev
      cases hev
    · rintro B payload cid - hev
      cases hev
    · rintro B payload cid - hev
      cases hev
    · intro id lo _ _ B cid q p left hm
      rw [hnil] at hm
      cases hm
    · intro cid e hm
      rw [hnil] at hm
      cases hm

end Reached

/-- Whatever the other connections call their orders, `A` is sent the same messages, and the
published top of the book is the same after every call. A duplicate is refused to `A` for its own
records only. Until the engine ids come round, no CANCEL of another connection reaches the orders of
`A`, and their fills go to `A`. -/
theorem client_ids_private (build : Build) (cap softCap : Nat) (A : ConnId) :
    (∀ (ρ : Renaming fun c => decide (c = A)) (calls calls' : List (Event × Enumeration)),
      List.Forall₂ (fun x y => Event.Renamed ρ x.1 y.1) calls calls' →
      (Venue.new cap softCap >>= fun v => v.watched build (fun c => decide (c = A)) calls') =
        Venue.new cap softCap >>= fun v => v.watched build (fun c => decide (c = A)) calls) ∧
    ∀ (n : Nat) (v v' : Venue cap) (o : Enumeration) (ev : Event),
      Reached build cap softCap n v → v.cleared.handleIn build o ev = .ok v' →
      OwnRecords A v ev v' ∧ (n + acks v'.tables.sent < 2 ^ 64 → Private A v ev v') := by
  constructor
  · intro ρ calls calls' hcalls
    cases hv : Venue.new cap softCap with
    | error f => rfl
    | ok v => exact (Venue.Renamed.new hv).watched hcalls
  · intro n v v' o ev h hv
    exact ⟨h.ownRecords hv A, fun hlt => h.keepsPrivate hv hlt A⟩

/-- Connection 2 calls its order `b` in place of `a`. -/
def callItB : Renaming fun c => decide (c = 1) where
  name c := if c = 1 then id else Equiv.swap idA.bytes idB.bytes
  injective c := by
    split
    · exact Function.injective_id
    · exact (Equiv.swap idA.bytes idB.bytes).injective
  fixed c hc cid := by
    rw [if_pos (of_decide_eq_true hc)]
    rfl

theorem callItB_renamed : Event.Renamed callItB (.line 2 (newOrderLine idA .sell 99 3 idA))
    (.line 2 (newOrderLine idB .sell 99 3 idA)) := by
  refine .line ?_
  rw [parseInbound_newOrder, parseInbound_newOrder]
  have hname : callItB.name 2 idA.bytes = idB.bytes := Equiv.swap_apply_left _ _
  simp only [InboundMessage.rename, Option.map_some, hname]

/-- Connections 1 and 2 both use `a`, or only connection 1 does. -/
theorem client_ids_private_partial_fill :
    (Venue.new 3 2 >>= fun v => v.watched .ndebug (fun c => decide (c = 1))
      [(.line 1 (newOrderLine idA .buy 100 5 idA), .stored),
        (.line 2 (newOrderLine idB .sell 99 3 idA), .stored)]) =
      Venue.new 3 2 >>= fun v => v.watched .ndebug (fun c => decide (c = 1))
        [(.line 1 (newOrderLine idA .buy 100 5 idA), .stored),
          (.line 2 (newOrderLine idA .sell 99 3 idA), .stored)] := by
  refine (client_ids_private .ndebug 3 2 1).1 callItB _ _ (.cons ?_ (.cons callItB_renamed .nil))
  exact .line (InboundMessage.rename_id _ fun _ => rfl).symm

/-- A CANCEL of an order that rests, on the priority book. -/
theorem Stands.cancel {s : Session cap} {T : Tables} {id : UInt64} {a : PriorityBook cap}
    (h : Stands s softCap T id a) (build : Build) {c : ConnId} {payload cid : Bytes}
    {r : ClientRecord} (hc : IsCancel payload cid) (hr : T.record c cid = some r)
    (hst : r.state = .resting) : ∃ v', s.venue.cleared.handle build (.line c payload) = .ok v' ∧
      v'.book.Rep (a.cancel r.engineId) := by
  obtain ⟨b, hb, hrep⟩ := cancelOrder_sim build h.rep h.wf r.engineId
  refine ⟨s.venue.cleared.cancelled c cid r b, ?_, hrep⟩
  have hrecord : s.venue.cleared.tables.record c cid = some r := by rw [h.tables, hr]
  have hcancel : s.venue.cleared.handle build (.line c payload) =
      s.venue.cleared.handleCancel build c (parseInbound payload) := by
    simp [Venue.handle, Venue.handleLine, Venue.handleMessage, hc.readable, hc.type]
  have hbook : s.venue.cleared.book.cancelOrder build r.engineId = .ok b := hb
  rw [hcancel, Venue.handleCancel_eq]
  simp only [hc.names, hrecord, hst, hbook]
  rfl

/-- After the counter has wrapped, connections 1 and 3 both call an order `a`, and the CANCEL of
connection 3 takes the offer of connection 1. -/
theorem shared_id_after_wrap : ∃ n, ∃ v v' : Venue 4, Reached .ndebug 4 3 n v ∧
    v.tables.record 1 idA.bytes = some ⟨.resting, exchangeId 1, 1⟩ ∧
    IsCancel (cancelLine idA idA) idA.bytes ∧
    v.cleared.handleIn .ndebug .stored (.line 3 (cancelLine idA idA)) = .ok v' ∧
    (v.book.resting .sell).map Order.participantId = [1] ∧ v'.book.resting .sell = [] := by
  obtain ⟨events, s, s₁, sequence, hs, -, hs₁, -, h₁⟩ := exists_reissued .ndebug
  have hc : IsCancel (cancelLine idA idA) idA.bytes := by
    refine ⟨?_, ?_, ?_⟩ <;> rw [parseInbound_cancel]
  obtain ⟨v', hv', hrep⟩ := h₁.cancel (c := 3) .ndebug hc (r := ⟨.resting, exchangeId 1, 1⟩)
    (by decide +kernel) rfl
  have hids := fun side => h₁.rep.map_resting Order.participantId (fun _ => rfl) h₁.wf side
  have hids' := fun side =>
    hrep.map_resting Order.participantId (fun _ => rfl) (h₁.wf.cancel 1) side
  have hown : s₁.venue.cleared.tables.record 1 idA.bytes = some ⟨.resting, exchangeId 1, 1⟩ := by
    rw [h₁.tables]
    decide +kernel
  exact ⟨_, s₁.venue, v', session_reached (session_snoc hs hs₁), hown, hc, hv', hids .sell,
    List.map_eq_nil_iff.mp (hids' .sell)⟩

end MarketMakerOps.Exchange
