import MarketMakerOps.Exchange.Budget
import MarketMakerOps.Ops.Reconciliation
import Mathlib.Algebra.Group.Action.Defs
import Mathlib.Algebra.Order.BigOperators.Group.List

/-!
How far the maker's position can run.

The maker has no position limit: it quotes `QUOTE_SIZE` on either side at every tick.

* `under`: what some messages fill under an id;
* `inventoryOf_bounds`: bids add to an inventory, asks take away;
* `Reachable.budget`: no id is filled for more than `QUOTE_SIZE`;
* `exposure_bounded`: so `n` ticks move the position by `QUOTE_SIZE * n` at most.
-/

namespace MarketMakerOps.Ops

open Decimal Engine Exchange Fallible

variable {cap softCap : Nat} {build : Build} {c : Client}

/-! ## Fills under an id -/

/-- What some messages fill under a client order id. -/
def under (cid : Bytes) (ms : List Outbound) : ℕ :=
  (ms.map fun m => if m.clientOrderId = cid then m.fillQty else 0).sum

theorem under_sublist {ms ms' : List Outbound} (h : ms.Sublist ms') (cid : Bytes) :
    under cid ms ≤ under cid ms' :=
  (h.map _).sum_le_sum fun _ _ => Nat.zero_le _

theorem under_repliesTo (conn : ConnId) (cid : Bytes) (s : Session cap) :
    under cid (repliesTo conn s) = filledUnder conn cid s.messages := by
  rw [under, repliesTo, filledUnder]
  induction s.messages with
  | nil => rfl
  | cons m msgs ih =>
    rw [List.map_cons, List.sum_cons, ← ih, fillUnder]
    by_cases hm : m.1 = conn <;> simp [hm]

section Sums

variable {pairs : List Pair} {Q : ℕ}

theorem sum_under_cons (f : Pair → Bytes) (m : Outbound) (ms : List Outbound) :
    (pairs.map fun p => under (f p) (m :: ms)).sum =
      (pairs.map fun p => if m.clientOrderId = f p then m.fillQty else 0).sum +
        (pairs.map fun p => under (f p) ms).sum := by
  rw [← List.sum_map_add]
  rfl

/-- A fill under the id of a pair is part of what is filled under the ids. -/
theorem le_sum_under {f : Pair → Bytes} {m : Outbound} (h : m.clientOrderId ∈ pairs.map f) :
    m.fillQty ≤ (pairs.map fun p => if m.clientOrderId = f p then m.fillQty else 0).sum := by
  obtain ⟨p, hp, hcid⟩ := List.mem_map.mp h
  have hle := List.single_le_sum (fun n _ => Nat.zero_le n) _ (List.mem_map_of_mem hp)
    (l := pairs.map fun p => if m.clientOrderId = f p then m.fillQty else 0)
  rwa [if_pos hcid.symm] at hle

/-- The side of a fill tells whose id it bears. -/
theorem signedQty_bounds (m : Outbound) :
    signedQty pairs m ≤
        ((pairs.map fun p => if m.clientOrderId = utf8 p.bidId then m.fillQty else 0).sum : ℕ) ∧
      -((pairs.map fun p => if m.clientOrderId = utf8 p.askId then m.fillQty else 0).sum : ℕ) ≤
        signedQty pairs m := by
  cases m with
  | fill e cid qty ticks left =>
    by_cases hbid : cid ∈ pairs.map fun p => utf8 p.bidId
    · have hside : sideIn pairs cid = some .buy := if_pos hbid
      have hle := le_sum_under (m := .fill e cid qty ticks left) hbid
      rw [signedQty_fill hside]
      refine ⟨Nat.cast_le.mpr hle, ?_⟩
      exact (neg_nonpos.mpr (Nat.cast_nonneg _)).trans (Nat.cast_nonneg _)
    · by_cases hask : cid ∈ pairs.map fun p => utf8 p.askId
      · have hside : sideIn pairs cid = some .sell := by
          rw [sideIn, if_neg hbid, if_pos hask]
        have hle := le_sum_under (m := .fill e cid qty ticks left) hask
        rw [signedQty_fill hside]
        refine ⟨(neg_nonpos.mpr (Nat.cast_nonneg _)).trans (Nat.cast_nonneg _), ?_⟩
        exact neg_le_neg (Nat.cast_le.mpr hle)
      · have hside : sideIn pairs cid = none := by
          rw [sideIn, if_neg hbid, if_neg hask]
        have hzero : signedQty pairs (.fill e cid qty ticks left) = 0 := by
          simp [signedQty, hside]
        rw [hzero]
        exact ⟨Nat.cast_nonneg _, neg_nonpos.mpr (Nat.cast_nonneg _)⟩
  | _ => exact ⟨Nat.cast_nonneg _, neg_nonpos.mpr (Nat.cast_nonneg _)⟩

/-- Bids add, asks take away. -/
theorem inventoryOf_bounds (ms : List Outbound) :
    inventoryOf pairs ms ≤ ((pairs.map fun p => under (utf8 p.bidId) ms).sum : ℕ) ∧
      -((pairs.map fun p => under (utf8 p.askId) ms).sum : ℕ) ≤ inventoryOf pairs ms := by
  induction ms with
  | nil =>
    have hzero : inventoryOf pairs [] = 0 := rfl
    rw [hzero]
    exact ⟨Nat.cast_nonneg _, neg_nonpos.mpr (Nat.cast_nonneg _)⟩
  | cons m ms ih =>
    obtain ⟨hle, hge⟩ : signedQty pairs m ≤ _ ∧ _ ≤ signedQty pairs m := signedQty_bounds m
    have hcons : inventoryOf pairs (m :: ms) = signedQty pairs m + inventoryOf pairs ms := by
      rw [inventoryOf, List.map_cons, List.sum_cons]
      rfl
    rw [hcons, sum_under_cons, sum_under_cons, Nat.cast_add, Nat.cast_add, neg_add]
    exact ⟨add_le_add hle ih.1, add_le_add hge ih.2⟩

/-- With `Q` at most under each id, a pair moves the inventory by `Q` at most. -/
theorem abs_inventoryOf_le {ms : List Outbound} (h : ∀ cid, under cid ms ≤ Q) :
    |inventoryOf pairs ms| ≤ Q * pairs.length := by
  have hsum : ∀ f : Pair → Bytes,
      (((pairs.map fun p => under (f p) ms).sum : ℕ) : ℚ) ≤ Q * pairs.length := by
    intro f
    have hle := List.sum_le_card_nsmul (pairs.map fun p => under (f p) ms) Q fun n hn => by
      obtain ⟨p, -, rfl⟩ := List.mem_map.mp hn
      exact h (f p)
    rw [List.length_map, smul_eq_mul, Nat.mul_comm] at hle
    exact_mod_cast hle
  obtain ⟨hle, hge⟩ : inventoryOf pairs ms ≤ _ ∧ _ ≤ inventoryOf pairs ms := inventoryOf_bounds ms
  refine abs_le.mpr ⟨?_, hle.trans (hsum _)⟩
  exact (neg_le_neg (hsum fun p => utf8 p.askId)).trans hge

end Sums

/-! ## Runs -/

/-- The maker orders `QUOTE_SIZE` at a time. -/
theorem Request.ordersAtMost (r : Request) (t : UtcTime) :
    (Event.line c.conn (r.payload t)).OrdersAtMost c.conn QUOTE_SIZE := by
  intro _ cid side p q hnew
  cases r with
  | newOrder id side' cents =>
    have hqty := hnew.forQty
    rw [parseInbound_newOrderRequest] at hqty
    split at hqty
    · cases hqty
      exact le_rfl
    · cases hqty
  | cancel id =>
    have htype := hnew.type
    rw [parseInbound_cancelRequest] at htype
    split at htype <;> cases htype

theorem ByOthers.ordersAtMost {ev : Event} (h : ByOthers c.conn ev) (Q : ℕ) :
    ev.OrdersAtMost c.conn Q := by
  cases ev with
  | line conn payload => exact fun hconn => absurd hconn h
  | drop conn => exact h

theorem Step.accepted_le {W W' : World cap} (h : Step build c W W') :
    W.session.accepted ≤ W'.session.accepted := by
  cases h with
  | take ps front call replies => exact Session.accepted_mono call
  | others ps byOthers call replies => exact Session.accepted_mono call
  | _ => exact le_rfl

/-- No id of the maker is filled for more than `QUOTE_SIZE`. -/
theorem Reachable.budget {W : World cap} (h : Reachable build softCap c W)
    (hlt : W.session.accepted < 2 ^ 64) :
    W.session.venue.cleared.tables.Budget c.conn QUOTE_SIZE W.session.messages := by
  obtain ⟨v, hv, hsteps⟩ := h
  induction hsteps with
  | refl =>
    have htables : (World.start v).session.venue.cleared.tables = ⟨false, 0, ∅, ∅, []⟩ := by
      obtain ⟨b, -, hv⟩ := bind_eq_ok.mp hv
      cases hv
      rfl
    rw [htables]
    refine ⟨fun _ _ => rfl, ?_, fun _ => Nat.zero_le _⟩
    rintro id lo ⟨⟩
  | @tail W W' hsteps hstep ih =>
    have ih := ih (lt_of_le_of_lt hstep.accepted_le hlt)
    obtain ⟨events, hrun⟩ := (Reachable.safe ⟨v, hv, hsteps⟩).run
    have hsynced : W.session.Synced :=
      session_synced hrun (lt_of_le_of_lt hstep.accepted_le hlt)
    cases hstep with
    | @take r t _ _ ps front call replies =>
      exact Session.budget_step ih hsynced (r.ordersAtMost t) call hlt
    | others ps byOthers call replies =>
      exact Session.budget_step ih hsynced (byOthers.ordersAtMost _) call hlt
    | _ => exact ih

/-- However the maker, the venue and the other clients interleave: no order is filled for more than
it was sent for, `QUOTE_SIZE`; after `n` ticks, the fills the venue has sent it come to an inventory
of `QUOTE_SIZE * n` at most, long or short, and so does the position it keeps. -/
theorem exposure_bounded {W : World cap} (h : Reachable build softCap c W)
    (hlt : W.session.accepted < 2 ^ 64) :
    (∀ cid, under cid (repliesTo c.conn W.session) ≤ QUOTE_SIZE) ∧
      |inventoryOf W.maker.pairs (repliesTo c.conn W.session)| ≤
        QUOTE_SIZE * W.maker.pairs.length ∧
      |W.maker.position.inventory| ≤ QUOTE_SIZE * W.maker.pairs.length := by
  have hbooked := h.booked
  have hunder : ∀ cid, under cid (repliesTo c.conn W.session) ≤ QUOTE_SIZE := by
    intro cid
    rw [under_repliesTo]
    have htotal := (h.budget hlt).total cid
    rwa [show W.session.messages ++ W.session.venue.cleared.tables.sent = W.session.messages from
      List.append_nil _] at htotal
  have htimely : (timely W.maker.pairs W.read).Sublist (repliesTo c.conn W.session) := by
    rw [hbooked.channel]
    exact ((List.filter_sublist).map Prod.snd).trans (List.sublist_append_left _ _)
  refine ⟨hunder, abs_inventoryOf_le hunder, ?_⟩
  rw [hbooked.inventory]
  exact abs_inventoryOf_le fun cid => (under_sublist htimely cid).trans (hunder cid)

theorem exposure_bounded_first_sale : ∃ W : World 4, W.maker.pairs.length = 1 ∧
    repliesTo 1 W.session = [bidAck, bidFill] ∧
      under (utf8 (desk.id 1)) (repliesTo 1 W.session) ≤ 10 ∧
      |inventoryOf W.maker.pairs (repliesTo 1 W.session)| ≤ 10 ∧
      |W.maker.position.inventory| ≤ 10 := by
  obtain ⟨s, hreach, hreplies, hlt⟩ := first_sale .debug
  have hread := hreach.filled rfl rfl
  obtain ⟨hunder, hsent, hposition⟩ := exposure_bounded hread hlt
  have hten : (QUOTE_SIZE : ℚ) * (1 : ℕ) = 10 := by
    rw [Nat.cast_one, mul_one]
    rfl
  exact ⟨⟨bidder.booked bidFill, [], s, [], [(1, bidAck), (1, bidFill)]⟩, rfl, hreplies, hunder _,
    hsent.trans_eq hten, hposition.trans_eq hten⟩

end MarketMakerOps.Ops
