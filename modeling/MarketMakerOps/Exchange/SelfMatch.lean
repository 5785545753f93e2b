import MarketMakerOps.Engine.SelfMatch
import MarketMakerOps.Exchange.Lifecycle
import MarketMakerOps.Exchange.Wrap

/-!
The self-match branch of the core, seen from the venue.

* `FillChain.sum`, `InStep.restingQty`: where the quantity of an order is;
* `self_match_unreachable`: no order the guards let through meets its own
  participant, and none loses quantity;
* `self_match_after_wrap`: one does once engine ids repeat.
-/

namespace MarketMakerOps.Exchange

open Decimal Engine Fallible

variable {cap softCap : Nat} {build : Build}

def restingQty (b : OrderBook cap) (id : UInt64) : Nat :=
  (((b.resting .buy ++ b.resting .sell).filter fun o => o.orderId = id).map
    fun o => o.quantity.toNat).sum

def Outbound.fillQty : Outbound → Nat
  | .fill _ _ qty _ _ => qty.toNat
  | _ => 0

/-- The quantity some messages report filled for an exchange id. -/
def filledQty (e : Bytes) (msgs : List Sent) : Nat :=
  ((about e msgs).map fun m => m.2.fillQty).sum

theorem filledQty_ack (conn : ConnId) (cid e : Bytes) (msgs : List Sent) :
    filledQty e ((conn, .ack cid e) :: msgs) = filledQty e msgs := by
  simp [filledQty, about, Outbound.exchangeId?, Outbound.fillQty]

/-- Fills and what they leave add up to what was open. -/
theorem FillChain.sum {side : OrderSide} {limit q : UInt32} {fs : List Fill}
    (h : FillChain side limit q fs) :
    (fs.map fun f => f.qty.toNat).sum + (leftAfter q fs).toNat = q.toNat := by
  induction fs generalizing q with
  | nil => simp [leftAfter]
  | cons f fs ih =>
    obtain ⟨-, hle, -, hrem, hfs⟩ := h
    have hrest := ih hfs
    rw [hrem, UInt32.toNat_sub_of_le _ _ hle] at hrest
    have := UInt32.le_iff_toNat_le.mp hle
    rw [List.map_cons, List.sum_cons, leftAfter, hrem]
    omega

theorem filter_key_eq {α β : Type*} [DecidableEq β] {f : α → β} {l : List α} (h : (l.map f).Nodup)
    {x : α} (hx : x ∈ l) : l.filter (fun y => f y = f x) = [x] := by
  obtain ⟨A, B, rfl⟩ := List.append_of_mem hx
  rw [List.map_append, List.map_cons, List.nodup_append, List.nodup_cons] at h
  obtain ⟨-, ⟨hB, -⟩, hA⟩ := h
  have hAnil : A.filter (fun y => f y = f x) = [] := by
    refine List.filter_eq_nil_iff.mpr fun y hy => ?_
    simpa using hA _ (List.mem_map_of_mem hy) _ List.mem_cons_self
  have hBnil : B.filter (fun y => f y = f x) = [] := by
    refine List.filter_eq_nil_iff.mpr fun y hy => ?_
    have hne : f y ≠ f x := fun heq => hB (heq ▸ List.mem_map_of_mem hy)
    simpa using hne
  rw [List.filter_append, hAnil, List.filter_cons_of_pos (by simp), hBnil]
  rfl

/-- The book holds under an id what the table of live orders says. -/
theorem Venue.InStep.restingQty {v : Venue cap} (h : v.InStep) (id : UInt64) :
    restingQty v.book id = ((v.tables.live id).map fun lo => lo.remaining.toNat).getD 0 := by
  have hnd : ((v.book.resting .buy ++ v.book.resting .sell).map Order.orderId).Nodup :=
    h.keys.nodup_iff.mp v.tables.byEngineId.nodupKeys
  cases hlo : v.tables.live id with
  | none =>
    have hnil :
        (v.book.resting .buy ++ v.book.resting .sell).filter (fun o => o.orderId = id) = [] := by
      refine List.filter_eq_nil_iff.mpr fun o ho => ?_
      rw [decide_eq_true_eq]
      rintro rfl
      have hmem := h.keys.mem_iff.mpr (List.mem_map_of_mem (f := Order.orderId) ho)
      have := AList.lookup_eq_none.mp hlo
      exact this hmem
    rw [Exchange.restingQty, hnil]
    rfl
  | some lo =>
    have hkey : id ∈ v.tables.byEngineId.keys :=
      AList.mem_keys.mp (AList.lookup_isSome.mp (Option.isSome_iff_exists.mpr ⟨lo, hlo⟩))
    obtain ⟨o, ho, rfl⟩ := List.mem_map.mp (h.keys.mem_iff.mp hkey)
    have hrem : lo.remaining = o.quantity := by
      have hentry : ∃ lo', v.tables.live o.orderId = some lo' ∧ Venue.Mirror o lo' := by
        rcases List.mem_append.mp ho with ho | ho
        · exact (h.entries .buy o ho).2
        · exact (h.entries .sell o ho).2
      obtain ⟨lo', hlo', hm⟩ := hentry
      rw [hlo, Option.some_inj] at hlo'
      exact hlo' ▸ hm.remaining
    rw [Exchange.restingQty, filter_key_eq hnd ho]
    simp [hrem]

theorem IsNewOrder.unique {payload cid cid' : Bytes} {side side' : OrderSide} {p p' q q' : UInt32}
    (h : IsNewOrder payload cid side p q) (h' : IsNewOrder payload cid' side' p' q') :
    side = side' ∧ p = p' ∧ q = q' :=
  ⟨Option.some_inj.mp (h.onSide.symm.trans h'.onSide),
    Option.some_inj.mp (h.atPrice.symm.trans h'.atPrice),
    Option.some_inj.mp (h.forQty.symm.trans h'.forQty)⟩

theorem Synced.ack_mem {v v' : Venue cap} {a : PriorityBook cap} {n : Nat} (h : Synced n v a)
    (hn : n + 1 < 2 ^ 64) {conn : ConnId} {payload cid : Bytes} {side : OrderSide} {p q : UInt32}
    (hacc : Accepts v conn payload cid side p q)
    (hsub : v.submit build conn cid side p q = .ok v') :
    (conn, .ack cid (exchangeId v.nextEngineId)) ∈ v'.tables.sent := by
  obtain ⟨ts, -, -, hfills, hT, -⟩ := h.accept hn hacc hsub
  obtain ⟨msgs, hmsgs⟩ := Tables.afterTrades_sent hfills
  rw [hT, hmsgs, entered_sent]
  simp

/-- The quantity of an acknowledged order is in its fills and in the book. -/
theorem Placed.quantity_kept {o : Placed} {id : UInt64} {v : Venue cap} (hin : v.InStep)
    {q : UInt32} {st : Placed.Stage} {ev : Event} {msgs : List Sent}
    (hadv : o.Advance (.live q) (ev, msgs) st) (hat : o.At id v.tables st)
    (hev : ev ≠ .drop o.conn) (hnc : ¬ o.IsCancelled ev) :
    filledQty o.exchangeOrderId msgs + restingQty v.book id = q.toNat := by
  cases hadv with
  | fills fs _ _ chain sent =>
    have hfilled : filledQty o.exchangeOrderId msgs = (fs.map fun f => f.qty.toNat).sum := by
      rw [filledQty, sent, List.map_map]
      rfl
    have hleft : restingQty v.book id = (leftAfter q fs).toNat := by
      rw [hin.restingQty]
      split at hat
      · next h0 =>
        rw [hat.1, h0]
        rfl
      · rw [hat.2]
        rfl
    rw [hfilled, hleft, chain.sum]
  | cancel _ isCancel => exact absurd isCancel hnc
  | drop => exact absurd rfl hev

/-- With fewer than `2 ^ 64` accepted orders, the one at hand included, no order that passes the
guards meets its own participant in the book, and each keeps its quantity. -/
theorem self_match_unreachable {events : List Event} {s : Session cap}
    (h : session build cap softCap events = .ok s) (hlt : s.accepted + 1 < 2 ^ 64) {conn : ConnId}
    {payload cid : Bytes} {side : OrderSide} {p q : UInt32}
    (hacc : Accepts s.venue.cleared conn payload cid side p q) :
    s.venue.book.meetsSelf build Tables.onTrade side p q s.venue.nextEngineId conn
      (s.venue.cleared.entered conn cid side p q) = false ∧
    ∀ s', s.step build (.line conn payload) = .ok s' →
      filledQty (exchangeId s.venue.nextEngineId) s'.venue.tables.sent +
        restingQty s'.venue.book s.venue.nextEngineId = q.toNat := by
  obtain ⟨a, hsync⟩ := session_synced h (by omega)
  constructor
  · rw [meetsSelf_eq _ _ _ _ _ _ _ _ hsync.rep (perm_finRange_iff.mp hsync.wf.slots).1]
    split
    · rfl
    · exact sweepMeetsSelf_eq_false fun e he hcross =>
        hsync.cleared.noSelf hacc.noSelfCross e he hcross
  · intro s' hs'
    obtain ⟨v', hv', rfl⟩ := Session.step_eq_ok.mp hs'
    have hone : acks v'.tables.sent = 1 :=
      hsync.cleared.acks_accept rfl (hacc.handle.symm.trans hv')
    have hbound : s.accepted + acks v'.tables.sent < 2 ^ 64 := hone ▸ hlt
    have hack := hsync.cleared.ack_mem hlt hacc (hacc.handle.symm.trans hv')
    obtain ⟨payload', side', p', q', id, rest, st, hev, hnew, -, he, -, hrest, hadv, hat⟩ :=
      Placed.At.accepted hsync.cleared rfl hv' hbound hack
    cases hev
    obtain ⟨rfl, rfl, rfl⟩ := hacc.toIsNewOrder.unique hnew
    obtain rfl : s.venue.nextEngineId = id := exchangeId_inj.mp he
    obtain ⟨a', hsync'⟩ := hsync.cleared.handle rfl hv' hbound
    have hnc : ¬ Placed.IsCancelled ⟨conn, cid, exchangeId s.venue.nextEngineId, side, p⟩
        (.line conn payload) := by
      rintro ⟨payload', hev, hcancel⟩
      cases hev
      have := hcancel.type
      rw [hnew.type] at this
      cases this
    have hkept := Placed.quantity_kept hsync'.inStep hadv hat (by simp) hnc
    rw [← hkept]
    refine congrArg (· + _) ?_
    show filledQty _ v'.tables.sent = _
    rw [hrest]
    exact filledQty_ack conn cid _ rest

/-- An ask of five is parked; a bid of two meets it. -/
theorem self_match_unreachable_ask : ∃ s : Session 3,
    session .ndebug 3 2 [.line 1 (newOrderLine idA .sell 99 5 idA)] = .ok s ∧
    s.venue.book.meetsSelf .ndebug Tables.onTrade .buy 100 2 s.venue.nextEngineId 2
      (s.venue.cleared.entered 2 idA.bytes .buy 100 2) = false := by
  obtain ⟨s, hs, hp⟩ : ∃ s : Session 3,
      session .ndebug 3 2 [.line 1 (newOrderLine idA .sell 99 5 idA)] = .ok s ∧
      decide (s.accepted + 1 < 2 ^ 64 ∧ s.venue.tables.record 2 idA.bytes = none ∧
        s.venue.tables.byEngineId.keys.length < s.venue.softCap ∧
        s.venue.tables.wouldSelfCross 2 .buy 100 = false) = true :=
    exists_session (by decide +kernel)
  obtain ⟨hlt, hfresh, hroom, hcross⟩ := of_decide_eq_true hp
  have hnew : IsNewOrder (newOrderLine idA .buy 100 2 idA) idA.bytes .buy 100 2 :=
    isNewOrder_line idA idA .buy 100 2 100 2 rfl rfl
  exact ⟨s, hs, (self_match_unreachable hs hlt ⟨hnew, by decide, hfresh, hroom, hcross⟩).1⟩

/-- Connection 3 offers one above the parked offer. -/
def offerAbove : Event := .line 3 (newOrderLine idA .sell 200 1 idA)

/-- Its entry takes the place of the parked one. -/
def replacedTables : Tables :=
  { parkedTables with
    byEngineId := parkedTables.byEngineId.insert 1 ⟨3, idA.bytes, exchangeId 1, .sell, 200, 1⟩
    byConn := parkedTables.byConn.insert 3 (AList.insert idA.bytes ⟨.resting, exchangeId 1, 1⟩ ∅)
    sent := [(3, .ack idA.bytes (exchangeId 1))] }

def replacedBook (sequence : UInt64) : PriorityBook 4 where
  free := [slot 2, slot 3]
  queue
    | .buy => []
    | .sell => [⟨slot 0, 1, 100, 5, 0, 1⟩, ⟨slot 1, 1, 200, 1, sequence, 3⟩]
  index := AList.insert 1 (slot 0) ∅
  sequence := sequence + 1

/-- After the counter has wrapped the entry of connection 1 is overwritten, and its bid meets its
own offer. -/
theorem self_match_after_wrap : ∃ events, ∃ s : Session 4,
    session .debug 4 3 events = .ok s ∧ ∃ payload cid side p q,
      Accepts s.venue.cleared 1 payload cid side p q ∧
      s.venue.book.meetsSelf .debug Tables.onTrade side p q s.venue.nextEngineId 1
        (s.venue.cleared.entered 1 cid side p q) = true := by
  obtain ⟨events, s, hs, ⟨sequence, h⟩, -⟩ := exists_wrapped .debug
  have hacc := h.accepts 3
    (isNewOrder_line idA idA .sell 200 1 200 1 rfl rfl)
    (by decide) rfl (by decide) rfl
  have hadd : (parkedBook sequence).add .debug .sell 200 1 1 3 =
      .ok ([], replacedBook sequence) := by
    refine add_rests 1 [2, 3] rfl rfl (by decide) rfl ?_
    exact book_ext rfl (fun s => by cases s <;> rfl) rfl rfl
  obtain ⟨s', hs', -, h'⟩ := h.accept replacedTables hacc hadd fun _ => rfl
  have hacc' := h'.accepts 1
    (isNewOrder_line idB idA .buy 100 1 100 1 rfl rfl)
    (by decide) (by decide +kernel) (by decide) rfl
  refine ⟨events ++ [offerAbove], s', session_snoc hs hs', _, _, _, _, _, hacc', ?_⟩
  rw [meetsSelf_eq _ _ _ _ _ _ _ _ h'.rep (perm_finRange_iff.mp h'.wf.slots).1]
  rfl

end MarketMakerOps.Exchange
