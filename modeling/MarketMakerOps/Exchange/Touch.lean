import MarketMakerOps.Exchange.Execution

/-!
Orders priced at the best price of the other side.

* `Top.opposite`: that price;
* `exists_reach`, `price_of_reach`: such an order reaches some orders, and each at that price;
* `Acknowledged.touch`: so it trades at once, and at no other price.
-/

namespace MarketMakerOps.Exchange

open Decimal Engine Priority Allotment Fallible

variable {cap softCap : Nat} {build : Build}

/-- The best price an order of a side can meet. -/
def Venue.Top.opposite (top : Venue.Top) : OrderSide → Option UInt32
  | .buy => if top.hasAsk then some top.askTicks else none
  | .sell => if top.hasBid then some top.bidTicks else none

section Market

variable {M : Market} {o inc : MarketOrder} {side : Side} {p : UInt32} {q : ℕ}

theorem opposite_top :
    M.top.opposite side = (M.resting side.opposite).head?.map MarketOrder.price := by
  cases side with
  | buy =>
    cases h : (M.resting .sell).head? <;>
      simp [Market.top, Venue.Top.opposite, Side.opposite, h]
  | sell =>
    cases h : (M.resting .buy).head? <;>
      simp [Market.top, Venue.Top.opposite, Side.opposite, h]

/-- At the touch the order first in line is within reach. -/
theorem exists_reach (htouch : M.top.opposite side = some p) : ∃ o, o ∈ M.reach side p := by
  rw [opposite_top] at htouch
  obtain ⟨o, ho, rfl⟩ := Option.map_eq_some_iff.mp htouch
  refine ⟨o, List.mem_filter.mpr ⟨List.mem_of_mem_head? ho, ?_⟩⟩
  exact (RefBook.crosses_iff side o.price o.price).mpr (lt_irrefl _)

theorem price_of_reach (htouch : M.top.opposite side = some p) (ho : o ∈ M.reach side p) :
    o.price = p := by
  rw [opposite_top] at htouch
  obtain ⟨b, hb, rfl⟩ := Option.map_eq_some_iff.mp htouch
  obtain ⟨ho, hcross⟩ := List.mem_filter.mp ho
  have hsorted : Sorted (fun o : MarketOrder => side.opposite.rank o.price)
      (M.resting side.opposite) := sorted_byPriority _
  -- the first in line has the best price, and a limit reaches no worse one than itself
  have hle : side.opposite.rank o.price ≤ side.opposite.rank b.price := by
    obtain ⟨l, hl⟩ : ∃ l, M.resting side.opposite = b :: l := by
      cases hrest : M.resting side.opposite with
      | nil => rw [hrest] at hb; cases hb
      | cons x l =>
        rw [hrest] at hb
        cases hb
        exact ⟨l, rfl⟩
    rw [hl] at ho hsorted
    rcases List.mem_cons.mp ho with rfl | ho
    · exact le_rfl
    · exact (List.pairwise_cons.mp hsorted).1 o ho
  have hge := not_lt.mp ((RefBook.crosses_iff side b.price o.price).mp hcross)
  exact Side.rank_inj.mp (le_antisymm hle hge)

/-- Trades happen at the prices of the orders that were there. -/
theorem price_of_report {ts : List (MarketOrder × ℕ)} {m : Sent} (hm : m ∈ Market.reports inc ts) :
    ∃ x ∈ ts, ∃ e cid n left, m.2 = .fill e cid n x.1.price left := by
  induction ts generalizing inc with
  | nil => cases hm
  | cons x ts ih =>
    obtain ⟨o, n⟩ := x
    rw [Market.reports, List.mem_append] at hm
    rcases hm with hm | hm
    · refine ⟨(o, n), List.mem_cons_self, ?_⟩
      cases hside : inc.side with
      | buy =>
        rw [hside] at hm
        rcases List.mem_pair.mp hm with rfl | rfl <;> exact ⟨_, _, _, _, rfl⟩
      | sell =>
        rw [hside] at hm
        rcases List.mem_pair.mp hm with rfl | rfl <;> exact ⟨_, _, _, _, rfl⟩
    · obtain ⟨x, hx, hfill⟩ := ih hm
      exact ⟨x, List.mem_cons_of_mem _ hx, hfill⟩

end Market

section Venue

variable {s s' : Session cap} {conn : ConnId} {cid e : Bytes} {side : OrderSide} {p : UInt32}
    {q : ℕ}
  {fills : List Sent} {M : Market}

theorem Tracks.reachable_pos {v : Venue cap} {a : PriorityBook cap} (h : Tracks M v a)
    (hlt : M.accepted < 2 ^ 64) (htouch : v.currentTop.opposite side = some p) :
    0 < v.tables.reachable side p := by
  rw [h.top] at htouch
  obtain ⟨o, ho⟩ := exists_reach htouch
  rw [h.reachable hlt]
  have hrem := (state_eq_resting.mp (mem_reach.mp ho).2.1).2
  exact (Nat.pos_of_ne_zero hrem).trans_le
    (List.single_le_sum (fun n _ => Nat.zero_le n) _ (List.mem_map_of_mem ho))

/-- An order at the touch trades at once, and at that price only. -/
theorem Acknowledged.touch (h : Acknowledged s s' conn cid e side p q fills M) (hq : 0 < q)
    (htouch : s.venue.currentTop.opposite side = some p) :
    0 < Exchange.filledQty e fills ∧
      ∀ m ∈ fills, ∃ e' cid' n left, m.2 = .fill e' cid' n p left := by
  obtain ⟨a, hM⟩ := h.before
  refine ⟨?_, fun m hm => ?_⟩
  · rw [h.filledQty]
    exact lt_min (hM.reachable_pos h.accepted_lt htouch) hq
  · rw [h.reports] at hm
    obtain ⟨x, hx, hfill⟩ := price_of_report hm
    rw [hM.top] at htouch
    rw [← price_of_reach htouch (mem_trades.mp hx).1]
    exact hfill

end Venue

end MarketMakerOps.Exchange
