import MarketMakerOps.Exchange.Handled

/-!
One order as its owner sees it: acknowledged, filled bit by bit, and at last
filled, cancelled, or gone with its connection.

* `Placed.Advance`: what one call may do to the order, and say about it;
* `Placed.Follows`: the same over a history;
* `Follows.about_eq`, `Follows.filled`, `Follows.cancelled`: what the messages
  of a history then look like.
-/

namespace MarketMakerOps.Exchange

open Decimal Engine

/-- The messages about an exchange id. -/
def about (e : Bytes) (msgs : List Sent) : List Sent :=
  msgs.filter fun m => m.2.exchangeId? = some e

theorem about_append (e : Bytes) (msgs msgs' : List Sent) :
    about e (msgs ++ msgs') = about e msgs ++ about e msgs' := List.filter_append ..

theorem mem_about {e : Bytes} {msgs : List Sent} {m : Sent} :
    m ∈ about e msgs ↔ m ∈ msgs ∧ m.2.exchangeId? = some e := by
  simp [about]

theorem about_eq_nil {e : Bytes} {msgs : List Sent} :
    about e msgs = [] ↔ ∀ m ∈ msgs, m.2.exchangeId? ≠ some e := by
  simp [about]

/-- The messages of a history. -/
def sentIn (H : List (Event × List Sent)) : List Sent := H.flatMap Prod.snd

@[simp] theorem sentIn_cons (x : Event × List Sent) (H : List (Event × List Sent)) :
    sentIn (x :: H) = x.2 ++ sentIn H := List.flatMap_cons ..

theorem sentIn_append (H H' : List (Event × List Sent)) :
    sentIn (H ++ H') = sentIn H ++ sentIn H' := List.flatMap_append ..

/-! ## Fills -/

/-- A fill, as reported. -/
structure Fill where
  qty : UInt32
  price : UInt32
  remaining : UInt32
  deriving DecidableEq, Repr

/-- No worse than the limit. -/
def NoWorse : OrderSide → UInt32 → UInt32 → Prop
  | .buy, limit, price => price ≤ limit
  | .sell, limit, price => limit ≤ price

/-- Fills of an order with `q` open: each takes one or more, at a price within the limit. -/
def FillChain (side : OrderSide) (limit : UInt32) : UInt32 → List Fill → Prop
  | _, [] => True
  | q, f :: fs => 1 ≤ f.qty ∧ f.qty ≤ q ∧ NoWorse side limit f.price ∧ f.remaining = q - f.qty ∧
      FillChain side limit f.remaining fs

/-- What is open after some fills. -/
def leftAfter : UInt32 → List Fill → UInt32
  | q, [] => q
  | _, f :: fs => leftAfter f.remaining fs

section Chains

variable {side : OrderSide} {limit q : UInt32} {fs gs : List Fill}

theorem leftAfter_append : leftAfter q (fs ++ gs) = leftAfter (leftAfter q fs) gs := by
  induction fs generalizing q with
  | nil => rfl
  | cons f fs ih => exact ih

theorem FillChain.append (h : FillChain side limit q fs)
    (h' : FillChain side limit (leftAfter q fs) gs) : FillChain side limit q (fs ++ gs) := by
  induction fs generalizing q with
  | nil => exact h'
  | cons f fs ih =>
    obtain ⟨h1, h2, h3, h4, h5⟩ := h
    exact ⟨h1, h2, h3, h4, ih h5 h'⟩

/-- Nothing fills a completed order. -/
theorem FillChain.eq_nil (h : FillChain side limit 0 fs) : fs = [] := by
  cases fs with
  | nil => rfl
  | cons f fs =>
    obtain ⟨h1, h2, -⟩ := h
    have := UInt32.le_trans h1 h2
    exact absurd this (by decide)

/-- A fill that leaves nothing is the last one. -/
theorem FillChain.leftAfter_eq (h : FillChain side limit q fs) {f : Fill} (hf : f ∈ fs)
    (h0 : f.remaining = 0) : leftAfter q fs = 0 := by
  induction fs generalizing q with
  | nil => cases hf
  | cons g fs ih =>
    obtain ⟨-, -, -, -, h5⟩ := h
    rcases List.mem_cons.mp hf with rfl | hf
    · rw [h0] at h5
      rw [leftAfter, h0, h5.eq_nil]
      rfl
    · exact ih h5 hf

end Chains

/-! ## Stages -/

/-- An acknowledged order. -/
structure Placed where
  conn : ConnId
  clientOrderId : Bytes
  exchangeOrderId : Bytes
  side : OrderSide
  limit : UInt32

namespace Placed

variable (o : Placed)

def fill (f : Fill) : Sent :=
  (o.conn, .fill o.exchangeOrderId o.clientOrderId f.qty f.price f.remaining)

def cancelAck : Sent := (o.conn, .cancelAck o.clientOrderId o.exchangeOrderId)

/-- The reply to a CANCEL that comes too late. -/
def tooLate (reason : CancelRejectReason) : Sent := (o.conn, .cancelReject o.clientOrderId reason)

/-- Where an order stands. -/
inductive Stage
  | live (remaining : UInt32)
  | filled
  | cancelled
  | dropped
  deriving DecidableEq

/-- A request of the owner to cancel the order. -/
def IsCancelled (ev : Event) : Prop := ∃ payload, ev = .line o.conn payload ∧
  IsCancel payload o.clientOrderId

/-- What a call may do to the order, with the messages it sends. -/
inductive Advance : Stage → Event × List Sent → Stage → Prop
  | fills {q : UInt32} {ev : Event} {msgs : List Sent} (fs : List Fill) (open_ : q ≠ 0)
      (stays : ev ≠ .drop o.conn) (chain : FillChain o.side o.limit q fs)
      (sent : about o.exchangeOrderId msgs = fs.map o.fill) :
      Advance (.live q) (ev, msgs) (if leftAfter q fs = 0 then .filled else .live (leftAfter q fs))
  | cancel {q : UInt32} {ev : Event} {msgs : List Sent} (open_ : q ≠ 0)
      (isCancel : o.IsCancelled ev) (sent : about o.exchangeOrderId msgs = [o.cancelAck]) :
      Advance (.live q) (ev, msgs) .cancelled
  | filled {ev : Event} {msgs : List Sent} (stays : ev ≠ .drop o.conn)
      (sent : about o.exchangeOrderId msgs = [])
      (reply : o.IsCancelled ev → msgs = [o.tooLate .alreadyFilled]) :
      Advance .filled (ev, msgs) .filled
  | cancelled {ev : Event} {msgs : List Sent} (stays : ev ≠ .drop o.conn)
      (sent : about o.exchangeOrderId msgs = [])
      (reply : o.IsCancelled ev → msgs = [o.tooLate .alreadyCancelled]) :
      Advance .cancelled (ev, msgs) .cancelled
  | drop {st : Stage} {msgs : List Sent} (sent : about o.exchangeOrderId msgs = []) :
      Advance st (.drop o.conn, msgs) .dropped
  | dropped {ev : Event} {msgs : List Sent} (sent : about o.exchangeOrderId msgs = []) :
      Advance .dropped (ev, msgs) .dropped

/-- The same over a history. -/
inductive Follows : Stage → List (Event × List Sent) → Stage → Prop
  | nil (st : Stage) : Follows st [] st
  | cons {st st' st'' : Stage} {x : Event × List Sent} {H : List (Event × List Sent)}
      (head : o.Advance st x st') (tail : Follows st' H st'') : Follows st (x :: H) st''

variable {o} {st st' : Stage} {H H' : List (Event × List Sent)} {x : Event × List Sent}

theorem Follows.append_inv (h : o.Follows st (H ++ H') st') :
    ∃ st₁, o.Follows st H st₁ ∧ o.Follows st₁ H' st' := by
  induction H generalizing st with
  | nil => exact ⟨st, .nil st, h⟩
  | cons x H ih =>
    cases h with
    | cons head tail =>
      obtain ⟨st₁, h₁, h₂⟩ := ih tail
      exact ⟨st₁, .cons head h₁, h₂⟩

/-- An order that is done stays done. -/
theorem Advance.done (h : o.Advance st x st') (hst : ∀ q, st ≠ .live q) :
    (∀ q, st' ≠ .live q) ∧ about o.exchangeOrderId x.2 = [] := by
  cases h with
  | fills => exact absurd rfl (hst _)
  | cancel => exact absurd rfl (hst _)
  | filled _ sent => exact ⟨by simp, sent⟩
  | cancelled _ sent => exact ⟨by simp, sent⟩
  | drop sent => exact ⟨by simp, sent⟩
  | dropped sent => exact ⟨by simp, sent⟩

/-- Nothing more is said about an order that is done. -/
theorem Follows.silent (h : o.Follows st H st') (hst : ∀ q, st ≠ .live q) :
    about o.exchangeOrderId (sentIn H) = [] := by
  induction h with
  | nil => rfl
  | cons head tail ih =>
    obtain ⟨hst', hx⟩ := head.done hst
    rw [sentIn_cons, about_append, hx, ih hst']
    rfl

/-- Fills, and at most one cancellation of what is left. -/
theorem Follows.about_eq {q : UInt32} (h : o.Follows (.live q) H st') : ∃ fs cs,
    about o.exchangeOrderId (sentIn H) = fs.map o.fill ++ cs ∧ FillChain o.side o.limit q fs ∧
    (cs = [] ∨ cs = [o.cancelAck] ∧ leftAfter q fs ≠ 0) := by
  induction H generalizing q with
  | nil => exact ⟨[], [], rfl, trivial, Or.inl rfl⟩
  | cons x H ih =>
    cases h with
    | cons head tail =>
      rw [sentIn_cons, about_append]
      cases head with
      | fills fs _ _ chain sent =>
        rw [sent]
        split at tail
        · refine ⟨fs, [], ?_, chain, Or.inl rfl⟩
          rw [tail.silent (by simp)]
        · obtain ⟨gs, cs, hsent, hchain, hcs⟩ := ih tail
          refine ⟨fs ++ gs, cs, ?_, chain.append hchain, ?_⟩
          · rw [hsent, List.map_append, List.append_assoc]
          · rw [leftAfter_append]
            exact hcs
      | cancel open_ _ sent =>
        refine ⟨[], [o.cancelAck], ?_, trivial, Or.inr ⟨rfl, open_⟩⟩
        rw [sent, tail.silent (by simp)]
        rfl
      | drop sent =>
        refine ⟨[], [], ?_, trivial, Or.inl rfl⟩
        rw [sent, tail.silent (by simp)]
        rfl

/-- While the connection stays, a done order is in the stage it ended in. -/
theorem Follows.stays (h : o.Follows st H st') (hst : st = .filled ∨ st = .cancelled)
    (hstay : ∀ x ∈ H, x.1 ≠ .drop o.conn) : st' = st := by
  induction h with
  | nil => rfl
  | cons head tail ih =>
    obtain ⟨hx, hH⟩ := List.forall_mem_cons.mp hstay
    cases head with
    | fills => simp at hst
    | cancel => simp at hst
    | filled => exact ih hst hH
    | cancelled => exact ih hst hH
    | drop => exact absurd rfl hx
    | dropped => simp at hst

theorem fill_ne_cancelAck (f : Fill) : o.fill f ≠ o.cancelAck := by simp [fill, cancelAck]

/-- After the fill that leaves nothing the order is filled. -/
theorem Follows.filled {q : UInt32} (h : o.Follows (.live q) H st')
    (hstay : ∀ x ∈ H, x.1 ≠ .drop o.conn) {f : Fill} (h0 : f.remaining = 0)
    (hf : o.fill f ∈ about o.exchangeOrderId (sentIn H)) : st' = .filled := by
  induction H generalizing q with
  | nil => cases hf
  | cons x H ih =>
    obtain ⟨hx, hH⟩ := List.forall_mem_cons.mp hstay
    cases h with
    | cons head tail =>
      rw [sentIn_cons, about_append, List.mem_append] at hf
      cases head with
      | fills fs _ _ chain sent =>
        by_cases hleft : leftAfter q fs = 0
        · rw [if_pos hleft] at tail
          exact tail.stays (Or.inl rfl) hH
        · rw [if_neg hleft] at tail
          refine ih tail hH (hf.resolve_left fun hin => hleft ?_)
          rw [sent] at hin
          obtain ⟨g, hg, hgf⟩ := List.mem_map.mp hin
          simp only [fill, Prod.mk.injEq, Outbound.fill.injEq, true_and] at hgf
          exact chain.leftAfter_eq hg (hgf.2.2.trans h0)
      | cancel _ _ sent =>
        rw [sent, tail.silent (by simp), List.mem_singleton] at hf
        rcases hf with hf | hf
        · exact absurd hf (fill_ne_cancelAck f)
        · cases hf
      | drop => exact absurd rfl hx

/-- After its cancellation the order is cancelled. -/
theorem Follows.cancelled {q : UInt32} (h : o.Follows (.live q) H st')
    (hstay : ∀ x ∈ H, x.1 ≠ .drop o.conn)
    (hc : o.cancelAck ∈ about o.exchangeOrderId (sentIn H)) : st' = .cancelled := by
  induction H generalizing q with
  | nil => cases hc
  | cons x H ih =>
    obtain ⟨hx, hH⟩ := List.forall_mem_cons.mp hstay
    cases h with
    | cons head tail =>
      rw [sentIn_cons, about_append, List.mem_append] at hc
      cases head with
      | fills fs _ _ _ sent =>
        have hrest := hc.resolve_left fun hin => by
          rw [sent] at hin
          obtain ⟨g, -, hg⟩ := List.mem_map.mp hin
          exact fill_ne_cancelAck g hg
        by_cases hleft : leftAfter q fs = 0
        · rw [if_pos hleft] at tail
          rw [tail.silent (by simp)] at hrest
          cases hrest
        · rw [if_neg hleft] at tail
          exact ih tail hH hrest
      | cancel => exact tail.stays (Or.inr rfl) hH
      | drop => exact absurd rfl hx

/-- Nothing is said about an order once its connection is dropped. -/
theorem Follows.after_drop {m : List Sent}
    (h : o.Follows st (H ++ (.drop o.conn, m) :: H') st') :
    about o.exchangeOrderId (m ++ sentIn H') = [] := by
  obtain ⟨st₁, -, htail⟩ := h.append_inv
  rw [about_append]
  cases htail with
  | cons head tail =>
    cases head with
    | fills _ _ stays => exact absurd rfl stays
    | cancel _ isCancel =>
      obtain ⟨payload, hev, -⟩ := isCancel
      cases hev
    | filled stays => exact absurd rfl stays
    | cancelled stays => exact absurd rfl stays
    | drop sent =>
      rw [sent, tail.silent (by simp)]
      rfl
    | dropped sent =>
      rw [sent, tail.silent (by simp)]
      rfl

/-- While the connection stays, a CANCEL of a done order is told what became of it. -/
theorem Follows.reply {q : UInt32} {ev : Event} {m : List Sent}
    (h : o.Follows (.live q) (H ++ (ev, m) :: H') st') (hc : o.IsCancelled ev)
    (hstay : ∀ x ∈ H, x.1 ≠ .drop o.conn) :
    ((∃ f : Fill, f.remaining = 0 ∧ o.fill f ∈ about o.exchangeOrderId (sentIn H)) →
      m = [o.tooLate .alreadyFilled]) ∧
    (o.cancelAck ∈ about o.exchangeOrderId (sentIn H) → m = [o.tooLate .alreadyCancelled]) := by
  obtain ⟨st₁, hH, htail⟩ := h.append_inv
  have hne : ev ≠ .drop o.conn := by
    obtain ⟨payload, rfl, -⟩ := hc
    simp
  cases htail with
  | cons head tail =>
    constructor
    · rintro ⟨f, h0, hf⟩
      rw [hH.filled hstay h0 hf] at head
      cases head with
      | filled _ _ reply => exact reply hc
      | drop => exact absurd rfl hne
    · intro hack
      rw [hH.cancelled hstay hack] at head
      cases head with
      | cancelled _ _ reply => exact reply hc
      | drop => exact absurd rfl hne

end Placed

end MarketMakerOps.Exchange
