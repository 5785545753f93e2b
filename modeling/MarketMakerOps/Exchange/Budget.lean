import MarketMakerOps.Exchange.FrameLimit
import MarketMakerOps.Exchange.SelfMatch

/-!
What is filled under the names of one connection, against what it orders under them.

* `filledUnder`: the fills to a connection under one of its client order ids, added up;
* `Tables.Budget`: with what is still open these come to no more than the largest order;
* `Budget.onTrade`, `Budget.handle`: trades and calls keep it, while the connection stays.
-/

namespace MarketMakerOps.Exchange

open Decimal Engine Fallible

variable {cap : Nat} {build : Build}

/-- What a message to a connection fills under a client order id. -/
def fillUnder (conn : ConnId) (cid : Bytes) (m : Sent) : ℕ :=
  if m.1 = conn ∧ m.2.clientOrderId = cid then m.2.fillQty else 0

def filledUnder (conn : ConnId) (cid : Bytes) (msgs : List Sent) : ℕ :=
  (msgs.map (fillUnder conn cid)).sum

section Sums

variable {conn : ConnId} {cid : Bytes} {msgs msgs' : List Sent}

theorem filledUnder_append : filledUnder conn cid (msgs ++ msgs') =
    filledUnder conn cid msgs + filledUnder conn cid msgs' := by
  rw [filledUnder, List.map_append, List.sum_append]
  rfl

theorem filledUnder_of_not_fill (h : ∀ m ∈ msgs, m.2.fillQty = 0) :
    filledUnder conn cid msgs = 0 := by
  induction msgs with
  | nil => rfl
  | cons m msgs ih =>
    obtain ⟨hm, h⟩ := List.forall_mem_cons.mp h
    rw [filledUnder, List.map_cons, List.sum_cons, fillUnder, hm, ite_self, Nat.zero_add]
    exact ih h

theorem fillQty_of_about {m : Outbound} (h : m.exchangeId? = none) : m.fillQty = 0 := by
  cases m with
  | fill e cid qty ticks left => cases h
  | _ => rfl

theorem filledUnder_legs (b s : LiveOrder) (t : Trade) :
    filledUnder conn cid (msgs ++ [b.fill t, s.fill t]) = filledUnder conn cid msgs +
      ((if b.owner = conn ∧ b.clientOrderId = cid then t.quantity.toNat else 0) +
        if s.owner = conn ∧ s.clientOrderId = cid then t.quantity.toNat else 0) := by
  have hlegs : filledUnder conn cid [b.fill t, s.fill t] =
      fillUnder conn cid (b.fill t) + fillUnder conn cid (s.fill t) := by simp [filledUnder]
  rw [filledUnder_append, hlegs]
  rfl

end Sums

namespace Tables

/-- The fills to a connection so far, of earlier calls and of this one, and what its orders have
open come to `Q` at most under each of its names. -/
structure Budget (conn : ConnId) (Q : ℕ) (earlier : List Sent) (T : Tables) : Prop where
  fresh : ∀ cid, T.record conn cid = none → filledUnder conn cid (earlier ++ T.sent) = 0
  live : ∀ id lo, T.live id = some lo → lo.owner = conn →
    filledUnder conn lo.clientOrderId (earlier ++ T.sent) + lo.remaining.toNat ≤ Q
  total : ∀ cid, filledUnder conn cid (earlier ++ T.sent) ≤ Q

namespace Budget

variable {T : Tables} {conn : ConnId} {Q n : ℕ} {earlier : List Sent} {t : Trade} {b s : LiveOrder}

theorem onTrade (h : T.Budget conn Q earlier) (hrec : T.Recorded n) (hf : T.Fillable t b s) :
    (T.onTrade t).Budget conn Q earlier := by
  have hsum : ∀ cid, filledUnder conn cid (earlier ++ (T.onTrade t).sent) =
      filledUnder conn cid (earlier ++ T.sent) +
        ((if b.owner = conn ∧ b.clientOrderId = cid then t.quantity.toNat else 0) +
          if s.owner = conn ∧ s.clientOrderId = cid then t.quantity.toNat else 0) := by
    intro cid
    rw [onTrade_sent hf, ← List.append_assoc, filledUnder_legs]
  -- a leg of the connection has a record, and is the only live order under its name
  have hnamed : ∀ {id lo cid}, T.live id = some lo → lo.owner = conn ∧ lo.clientOrderId = cid →
      ∃ r, T.record conn cid = some r ∧ r.engineId = id := by
    rintro id lo cid hlo ⟨rfl, rfl⟩
    obtain ⟨-, r, hr, hid, -⟩ := hrec.entry id lo hlo
    exact ⟨r, hr, hid⟩
  have hsame : ∀ {id id' lo lo'}, T.live id = some lo → T.live id' = some lo' →
      lo.owner = conn → lo'.owner = conn → lo'.clientOrderId = lo.clientOrderId → id' = id := by
    intro id id' lo lo' hlo hlo' ho ho' hcid
    obtain ⟨r, hr, hid⟩ := hnamed hlo ⟨ho, rfl⟩
    obtain ⟨r', hr', hid'⟩ := hnamed hlo' ⟨ho', hcid⟩
    rw [hr, Option.some_inj] at hr'
    rw [← hid, ← hid', hr']
  have hbuy : b.owner = conn → t.quantity.toNat ≤ b.remaining.toNat := fun _ =>
    UInt32.le_iff_toNat_le.mp hf.buyRoom
  have hsell : s.owner = conn → t.quantity.toNat ≤ s.remaining.toNat := fun _ =>
    UInt32.le_iff_toNat_le.mp hf.sellRoom
  refine ⟨fun cid hnone => ?_, fun id lo hlo ho => ?_, fun cid => ?_⟩
  · have hnone : T.record conn cid = none := by
      rw [onTrade_record hf] at hnone
      split at hnone
      · exact Option.map_eq_none_iff.mp hnone
      · exact hnone
    have hno : ∀ {id lo}, T.live id = some lo → ¬(lo.owner = conn ∧ lo.clientOrderId = cid) := by
      intro id lo hlo hcid
      obtain ⟨r, hr, -⟩ := hnamed hlo hcid
      rw [hnone] at hr
      cases hr
    rw [hsum, h.fresh cid hnone, if_neg (hno hf.buy), if_neg (hno hf.sell)]
  · rw [onTrade_live hf] at hlo
    split at hlo
    · -- what the leg gets it has no longer open
      unfold LiveOrder.after at hlo
      split at hlo
      · cases hlo
      · cases hlo
        have hs : ¬ s.owner = conn := fun hs => hf.owners (ho.trans hs.symm)
        have hle := h.live _ b hf.buy ho
        have hsub := UInt32.toNat_sub_of_le _ _ hf.buyRoom
        have hroom := hbuy ho
        dsimp only at ho ⊢
        rw [hsum, if_pos ⟨ho, rfl⟩, if_neg fun hc => hs hc.1, hsub]
        omega
    · next hb =>
      split at hlo
      · unfold LiveOrder.after at hlo
        split at hlo
        · cases hlo
        · cases hlo
          have hb' : ¬ b.owner = conn := fun hb' => hf.owners (hb'.trans ho.symm)
          have hle := h.live _ s hf.sell ho
          have hsub := UInt32.toNat_sub_of_le _ _ hf.sellRoom
          have hroom := hsell ho
          dsimp only at ho ⊢
          rw [hsum, if_neg fun hc => hb' hc.1, if_pos ⟨ho, rfl⟩, hsub]
          omega
      · next hs =>
        rw [hsum, if_neg fun hc => hb (hsame hf.buy hlo hc.1 ho hc.2.symm),
          if_neg fun hc => hs (hsame hf.sell hlo hc.1 ho hc.2.symm)]
        exact h.live id lo hlo ho
  · rw [hsum]
    have htotal := h.total cid
    by_cases hb : b.owner = conn ∧ b.clientOrderId = cid
    · have hs : ¬(s.owner = conn ∧ s.clientOrderId = cid) := fun hs =>
        hf.owners (hb.1.trans hs.1.symm)
      have hle := h.live _ b hf.buy hb.1
      have hroom := hbuy hb.1
      rw [hb.2] at hle
      rw [if_pos hb, if_neg hs]
      omega
    · by_cases hs : s.owner = conn ∧ s.clientOrderId = cid
      · have hle := h.live _ s hf.sell hs.1
        have hroom := hsell hs.1
        rw [hs.2] at hle
        rw [if_neg hb, if_pos hs]
        omega
      · rw [if_neg hb, if_neg hs]
        omega

theorem afterTrades {ts : List Trade} (h : T.Budget conn Q earlier) (hrec : T.Recorded n)
    (hf : T.Fills ts) : (T.afterTrades ts).Budget conn Q earlier := by
  induction ts generalizing T with
  | nil => exact h
  | cons t ts ih =>
    obtain ⟨⟨b, s, hbs⟩, hts⟩ := hf
    exact ih (h.onTrade hrec hbs) (hrec.onTrade hbs) hts

/-- Calls of before are earlier calls. -/
theorem cleared {v : Venue cap} (h : v.tables.Budget conn Q earlier) :
    v.cleared.tables.Budget conn Q (earlier ++ v.tables.sent) := by
  refine ⟨fun cid hnone => ?_, fun id lo hlo ho => ?_, fun cid => ?_⟩
  · exact (congrArg _ (List.append_nil _)).trans (h.fresh cid hnone)
  · have hle := h.live id lo hlo ho
    rwa [show earlier ++ v.tables.sent ++ v.cleared.tables.sent = earlier ++ v.tables.sent from
      List.append_nil _]
  · exact (congrArg _ (List.append_nil _)).trans_le (h.total cid)

/-- Messages that fill nothing, fewer live orders, and no record gone. -/
theorem quiet {T' : Tables} {msgs : List Sent} (h : T.Budget conn Q earlier)
    (hsent : T'.sent = T.sent ++ msgs) (hmsgs : ∀ m ∈ msgs, m.2.fillQty = 0)
    (hlive : ∀ id lo, T'.live id = some lo → lo.owner = conn → T.live id = some lo)
    (hrecord : ∀ cid, T'.record conn cid = none → T.record conn cid = none) :
    T'.Budget conn Q earlier := by
  have hsum : ∀ cid, filledUnder conn cid (earlier ++ T'.sent) =
      filledUnder conn cid (earlier ++ T.sent) := by
    intro cid
    rw [hsent, ← List.append_assoc, filledUnder_append, filledUnder_of_not_fill hmsgs, Nat.add_zero]
  refine ⟨fun cid hnone => ?_, fun id lo hlo ho => ?_, fun cid => ?_⟩
  · rw [hsum]
    exact h.fresh cid (hrecord cid hnone)
  · rw [hsum]
    exact h.live id lo (hlive id lo hlo ho) ho
  · rw [hsum]
    exact h.total cid

end Budget

end Tables

/-- The connection stays, and orders `Q` at most at a time. -/
def Event.OrdersAtMost (conn : ConnId) (Q : ℕ) : Event → Prop
  | .line conn' payload => conn' = conn →
      ∀ cid side p q, IsNewOrder payload cid side p q → q.toNat ≤ Q
  | .drop conn' => conn' ≠ conn

section Calls

variable {v v' : Venue cap} {a : PriorityBook cap} {ev : Event} {conn : ConnId} {Q n : ℕ}
  {earlier : List Sent}

/-- An order is entered under a new name. -/
theorem Tables.Budget.entered (h : v.tables.Budget conn Q earlier) {conn' : ConnId} {cid : Bytes}
    (side : OrderSide) (p : UInt32) {q : UInt32} (hfresh : v.tables.record conn' cid = none)
    (hq : conn' = conn → q.toNat ≤ Q) :
    (v.entered conn' cid side p q).Budget conn Q earlier := by
  have hsum : ∀ cid', filledUnder conn cid' (earlier ++ (v.entered conn' cid side p q).sent) =
      filledUnder conn cid' (earlier ++ v.tables.sent) := by
    intro cid'
    have hack : filledUnder conn cid' [(conn', .ack cid (exchangeId v.nextEngineId))] = 0 :=
      filledUnder_of_not_fill fun m hm => by rw [List.mem_singleton.mp hm]; rfl
    rw [entered_sent, ← List.append_assoc, filledUnder_append, hack, Nat.add_zero]
  refine ⟨fun cid' hnone => ?_, fun id lo hlo ho => ?_, fun cid' => ?_⟩
  · rw [hsum]
    rw [entered_record] at hnone
    split at hnone
    · cases hnone
    · exact h.fresh cid' hnone
  · rw [hsum]
    rw [entered_live] at hlo
    split at hlo
    · cases hlo
      have ho : conn' = conn := ho
      subst ho
      rw [show (v.newOrder conn' cid side p q).clientOrderId = cid from rfl, h.fresh cid hfresh,
        Nat.zero_add]
      exact hq rfl
    · exact h.live id lo hlo ho
  · rw [hsum]
    exact h.total cid'

/-- A call keeps what is filled within what was ordered. -/
theorem Tables.Budget.handle (h : v.tables.Budget conn Q earlier) (hs : Synced n v a)
    (hsent : v.tables.sent = []) (hev : ev.OrdersAtMost conn Q) (hv : v.handle build ev = .ok v')
    (hlt : n + acks v'.tables.sent < 2 ^ 64) : v'.tables.Budget conn Q earlier := by
  cases handled_ok hv with
  | quiet result msgs _ _ _ live record sent about' =>
    cases result
    refine h.quiet sent (fun m hm => fillQty_of_about (about' m hm)) (fun id lo hlo _ => ?_)
      fun cid hnone => (record conn cid).symm.trans hnone
    rwa [Tables.live, live] at hlo
  | @accept conn' payload cid side p q _ accepts result =>
    rw [hs.acks_accept hsent result.symm] at hlt
    obtain ⟨ts, -, -, hfills, hT, -⟩ := hs.accept hlt accepts result.symm
    have hrec := hs.recorded_entered side p q hlt accepts.fresh
    have hq : conn' = conn → q.toNat ≤ Q := fun hc => hev hc cid side p q accepts.toIsNewOrder
    rw [hT]
    exact (h.entered side p accepts.fresh hq).afterTrades hrec hfills
  | @cancel conn' payload cid r _ _ hr _ result =>
    obtain ⟨book, -, hv'⟩ := bind_eq_ok.mp result.symm
    cases hv'
    refine h.quiet (cancelled_sent v conn' cid r book) (fun m hm => ?_)
      (fun id lo hlo _ => ?_) fun cid' hnone => ?_
    · rw [List.mem_singleton.mp hm]
      rfl
    · rw [cancelled_live] at hlo
      split at hlo
      · cases hlo
      · exact hlo
    · rw [cancelled_record] at hnone
      split at hnone
      · cases hnone
      · exact hnone
  | @drop conn' _ result =>
    obtain ⟨-, -, -, hlive, hrecord, hsent', -⟩ := post_of_ok (hs.drop build _) result.symm
    have hne : conn' ≠ conn := hev
    refine h.quiet (hsent'.trans (List.append_nil _).symm) (fun m hm => (by cases hm))
      (fun id lo hlo ho => ?_) fun cid hnone => ?_
    · rw [hlive] at hlo
      exact (Option.filter_eq_some_iff.mp hlo).1
    · rwa [hrecord, if_neg hne.symm] at hnone

/-- A call of a session. -/
theorem Session.budget_step {s s' : Session cap}
    (h : s.venue.cleared.tables.Budget conn Q s.messages) (hs : s.Synced)
    (hev : ev.OrdersAtMost conn Q) (hstep : s.step build ev = .ok s')
    (hlt : s'.accepted < 2 ^ 64) : s'.venue.cleared.tables.Budget conn Q s'.messages := by
  obtain ⟨a, hs⟩ := hs
  obtain ⟨v', hv', rfl⟩ := Session.step_eq_ok.mp hstep
  rw [Session.accepted_concat] at hlt
  rw [Session.messages_concat]
  exact (h.handle hs.cleared rfl hev hv' hlt).cleared

end Calls

end MarketMakerOps.Exchange
