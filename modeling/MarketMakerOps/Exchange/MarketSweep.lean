import MarketMakerOps.Exchange.Market
import MarketMakerOps.Exchange.Runs

/-!
One incoming order, on the book and on the market.

* `sweep_allot`: the match loop hands the incoming quantity out in the order of
  the queue;
* `Queued M a`: the queues of the book are the resting orders of the market;
* `Queued.trades`, `Queued.left`, `Queued.accept`: the loop's trades, remainder
  and queues are the market's.
-/

namespace MarketMakerOps.Exchange

open Decimal Engine Priority Allotment

variable {cap : Nat}

/-! ## The match loop hands out a quantity -/

/-- An entry with less open. -/
def reduced (x : Resting cap × ℕ) : Resting cap :=
  { x.1 with quantity := x.1.quantity - .ofNat x.2 }

def openQty (e : Resting cap) : ℕ := e.quantity.toNat

theorem reduced_zero (e : Resting cap) : reduced (e, 0) = e := by
  simp [reduced]

theorem reduced_all (e : Resting cap) : (reduced (e, openQty e)).quantity = 0 := by
  simp [reduced, openQty]

section Sweep

variable {side : Side} {inc : Resting cap} {P : List (Resting cap)}

/-- The part of a queue a limit reaches. -/
def crossing (side : Side) (limit : UInt32) (P : List (Resting cap)) : List (Resting cap) :=
  P.filter fun e => crosses side limit e.price

/-- The part it does not reach. -/
def beyond (side : Side) (limit : UInt32) (P : List (Resting cap)) : List (Resting cap) :=
  P.filter fun e => !crosses side limit e.price

theorem not_crosses {limit price : UInt32} : crosses side limit price = false ↔
    side.opposite.rank price < side.opposite.rank limit := by
  rw [Bool.eq_false_iff, Ne, RefBook.crosses_iff, not_not]

/-- What a test lets pass comes first when no later element passes without the earlier ones. -/
theorem filter_append_filter_not {α : Type*} {p : α → Bool} {l : List α}
    (h : l.Pairwise fun a b => p b = true → p a = true) :
    l.filter p ++ l.filter (fun a => !p a) = l := by
  induction l with
  | nil => rfl
  | cons a l ih =>
    obtain ⟨ha, hl⟩ := List.pairwise_cons.mp h
    cases hp : p a with
    | true =>
      rw [List.filter_cons_of_pos hp, List.filter_cons_of_neg (by simp [hp]), List.cons_append,
        ih hl]
    | false =>
      have hnone : ∀ b ∈ a :: l, p b = false := by
        intro b hb
        rcases List.mem_cons.mp hb with rfl | hb
        · exact hp
        · exact Bool.eq_false_iff.mpr fun hpb => by simp [ha b hb hpb] at hp
      rw [List.filter_eq_nil_iff.mpr fun b hb => by simp [hnone b hb],
        List.filter_eq_self.mpr fun b hb => by simp [hnone b hb], List.nil_append]

/-- A queue is best first: what a limit reaches comes before what it does not. -/
theorem crossing_append_beyond (limit : UInt32) (hs : Sorted (Resting.rank side.opposite) P) :
    crossing side limit P ++ beyond side limit P = P := by
  refine filter_append_filter_not (hs.imp fun {e f} hfe hf => ?_)
  rw [RefBook.crosses_iff] at hf ⊢
  exact fun hlt => hf (lt_of_le_of_lt hfe hlt)

/-- Nothing is left to hand out. -/
theorem reduced_allot_zero {L N : List (Resting cap)} (hP : L ++ N = P)
    (hpos : ∀ e ∈ P, 0 < e.quantity) :
    P = ((allot openQty 0 L).map reduced ++ N).filter fun e => 0 < e.quantity := by
  have hsame : (L.map fun e => (e, 0)).map reduced = L := by
    rw [List.map_map]
    exact (List.map_congr_left fun e _ => reduced_zero e).trans (List.map_id L)
  rw [allot_zero, hsame, hP]
  exact (List.filter_eq_self.mpr fun e he => decide_eq_true (hpos e he)).symm

/-- Trades, remainder and queue of a sweep that meets no order of its own participant. -/
theorem sweep_allot (inc : Resting cap) (q : UInt32)
    (hs : Sorted (Resting.rank side.opposite) P) (hpos : ∀ e ∈ P, 0 < e.quantity)
    (hself : ∀ e ∈ P, ¬ side.opposite.rank e.price < side.opposite.rank inc.price →
      e.participantId ≠ inc.participantId) :
    (sweep side.opposite inc q P).trades =
        ((allot openQty q.toNat (crossing side inc.price P)).filter fun x => 0 < x.2).map
          (fun x => tradeOf side.opposite inc.orderId x.1.orderId x.1.price (.ofNat x.2)) ∧
      (sweep side.opposite inc q P).left.toNat =
        q.toNat - ((crossing side inc.price P).map openQty).sum ∧
      (sweep side.opposite inc q P).queue =
        ((allot openQty q.toNat (crossing side inc.price P)).map reduced ++
          beyond side inc.price P).filter fun e => 0 < e.quantity := by
  induction P generalizing q with
  | nil => exact ⟨rfl, rfl, rfl⟩
  | cons e P ih =>
    obtain ⟨he, hs'⟩ := List.pairwise_cons.mp hs
    have hsplit := crossing_append_beyond inc.price hs
    by_cases hq : q = 0
    · subst hq
      have hno : ∀ l : List (Resting cap), (allot openQty 0 l).filter (fun x => 0 < x.2) = [] := by
        intro l
        simp [allot_zero]
      simp only [sweep, true_or, if_true, UInt32.toNat_zero, hno]
      exact ⟨rfl, (Nat.zero_sub _).symm, reduced_allot_zero hsplit hpos⟩
    by_cases hlt : side.opposite.rank e.price < side.opposite.rank inc.price
    · -- nothing in the queue crosses
      have hnil : crossing side inc.price (e :: P) = [] := by
        refine List.filter_eq_nil_iff.mpr fun x hx => ?_
        rw [Bool.not_eq_true, not_crosses]
        rcases List.mem_cons.mp hx with rfl | hx
        · exact hlt
        · exact lt_of_le_of_lt (he x hx) hlt
      have hall := reduced_allot_zero hsplit hpos
      rw [hnil] at hall
      rw [sweep_of_worse hlt, hnil]
      exact ⟨rfl, rfl, hall⟩
    · have hc : crosses side inc.price e.price = true := (RefBook.crosses_iff _ _ _).mpr hlt
      have hcross : crossing side inc.price (e :: P) = e :: crossing side inc.price P :=
        List.filter_cons_of_pos hc
      have hbeyond : beyond side inc.price (e :: P) = beyond side inc.price P :=
        List.filter_cons_of_neg (by simp [hc])
      have hne := hself e List.mem_cons_self hlt
      have hepos : 0 < openQty e := UInt32.lt_iff_toNat_lt.mp (hpos e List.mem_cons_self)
      have hposP : ∀ x ∈ P, 0 < x.quantity := fun x hx => hpos x (List.mem_cons_of_mem _ hx)
      have hq0 : 0 < q.toNat := UInt32.lt_iff_toNat_lt.mp (UInt32.pos_iff_ne_zero.mpr hq)
      rw [hcross, hbeyond, allot]
      by_cases hqe : q < e.quantity
      · -- the last trade: the order keeps a remainder
        have hle := UInt32.lt_iff_toNat_lt.mp hqe
        have hmin : min (openQty e) q.toNat = q.toNat := min_eq_right hle.le
        have hzero : q.toNat - openQty e = 0 := Nat.sub_eq_zero_of_le hle.le
        have hrest : 0 < e.quantity - q := by grind
        have htail := reduced_allot_zero (crossing_append_beyond inc.price hs') hposP
        have hno :
            (allot openQty 0 (crossing side inc.price P)).filter (fun x => 0 < x.2) = [] := by
          simp [allot_zero]
        simp only [sweep, hq, hlt, hne, hqe, or_self, if_true, if_false, hmin, hzero]
        refine ⟨?_, ?_, ?_⟩
        · rw [List.filter_cons_of_pos (by simpa using hq0), hno]
          simp
        · rw [List.map_cons, List.sum_cons, openQty, UInt32.toNat_zero]
          omega
        · rw [List.map_cons, List.cons_append,
            List.filter_cons_of_pos (by simpa [reduced] using hrest), ← htail]
          simp [reduced]
      · have hle := UInt32.le_iff_toNat_le.mp (UInt32.not_lt.mp hqe)
        have hmin : min (openQty e) q.toNat = openQty e := min_eq_left hle
        have hsub : (q - e.quantity).toNat = q.toNat - openQty e :=
          UInt32.toNat_sub_of_le _ _ (UInt32.not_lt.mp hqe)
        obtain ⟨h₁, h₂, h₃⟩ := ih (q - e.quantity) hs' hposP
          fun x hx => hself x (List.mem_cons_of_mem _ hx)
        rw [hsub] at h₁ h₂ h₃
        simp only [sweep, hq, hlt, hne, hqe, or_self, if_false, hmin]
        refine ⟨?_, ?_, ?_⟩
        · rw [List.filter_cons_of_pos (by simpa using hepos), List.map_cons, h₁]
          simp [openQty]
        · rw [h₂, List.map_cons, List.sum_cons, Nat.sub_sub]
        · rw [h₃, List.map_cons, List.cons_append,
            List.filter_cons_of_neg (by rw [reduced_all]; simp)]

end Sweep

/-! ## Book and market -/

/-- An entry of the book as the market knows it, but for the name. -/
def MarketOrder.ofResting (side : Side) (e : Resting cap) : MarketOrder :=
  ⟨e.orderId.toNat, e.participantId, [], side, e.price, e.quantity.toNat, false⟩

/-- An order without its name. -/
def MarketOrder.bare (o : MarketOrder) : MarketOrder := { o with name := [], withdrawn := false }

/-- The queues of the book are the resting orders of the market. -/
def Queued (M : Market) (a : PriorityBook cap) : Prop :=
  ∀ s, (a.queue s).map (MarketOrder.ofResting s) = (M.resting s).map MarketOrder.bare

/-- The market's numbers count the orders it has. -/
def Market.Numbered (M : Market) : Prop := M.orders.Pairwise fun o o' => o.number < o'.number

/-- The trade of an incoming order of a side. -/
def tradeWith (side : Side) (id : UInt64) (x : MarketOrder × ℕ) : Trade :=
  tradeOf side.opposite id (.ofNat x.1.number) x.1.price (.ofNat x.2)

section Market

variable {M : Market} {a : PriorityBook cap} {side : Side} {limit : UInt32} {q : ℕ}
    {o : MarketOrder}

theorem mem_resting : o ∈ M.resting side ↔ o ∈ M.orders ∧ o.state = .resting ∧ o.side = side := by
  simp [Market.resting]

theorem mem_reach : o ∈ M.reach side limit ↔ o ∈ M.orders ∧ o.state = .resting ∧
    o.side = side.opposite ∧ crosses side limit o.price = true := by
  simp [Market.reach, mem_resting, and_assoc]

theorem state_eq_resting : o.state = .resting ↔ o.withdrawn = false ∧ o.remaining ≠ 0 := by
  unfold MarketOrder.state
  cases o.withdrawn <;> by_cases h : o.remaining = 0 <;> simp [h]

/-- Resting orders stand in order of precedence. -/
theorem resting_before (h : M.Numbered) (side : Side) :
    (M.resting side).Pairwise MarketOrder.Before := by
  have hp : (M.resting side).Pairwise
      (Precedes (fun o => side.rank o.price) MarketOrder.number) := byPriority_precedes (h.filter _)
  refine hp.imp_of_mem fun {o o'} ho ho' hb => ?_
  have hside : o.side = side := (mem_resting.mp ho).2.2
  have hside' : o'.side = side := (mem_resting.mp ho').2.2
  simpa only [MarketOrder.Before, Precedes, hside, hside'] using hb

theorem reach_before (h : M.Numbered) (side : Side) (limit : UInt32) :
    (M.reach side limit).Pairwise MarketOrder.Before := (resting_before h _).filter _

/-- What is handed out along the reached orders is each one's share. -/
theorem allot_reach (h : M.Numbered) (side : Side) (limit : UInt32) (q : ℕ) :
    allot MarketOrder.remaining q (M.reach side limit) =
      (M.reach side limit).map fun o => (o, Market.gets (M.reach side limit) q o) :=
  allot_eq_share (fun _ _ => Precedes.asymm) (reach_before h side limit) q

theorem trades_eq (h : M.Numbered) (side : Side) (limit : UInt32) (q : ℕ) :
    Market.trades (M.reach side limit) q =
      (allot MarketOrder.remaining q (M.reach side limit)).filter fun x => 0 < x.2 := by
  rw [Market.trades, allot_reach h]

theorem sum_positive (l : List (MarketOrder × ℕ)) :
    ((l.filter fun x => 0 < x.2).map Prod.snd).sum = (l.map Prod.snd).sum := by
  induction l with
  | nil => rfl
  | cons x l ih =>
    by_cases hx : 0 < x.2
    · rw [List.filter_cons_of_pos (by simpa using hx), List.map_cons, List.map_cons, List.sum_cons,
        List.sum_cons, ih]
    · rw [List.filter_cons_of_neg (by simpa using hx), List.map_cons, List.sum_cons, ih]
      omega

/-- The quantity an incoming order trades. -/
theorem sum_trades (h : M.Numbered) (side : Side) (limit : UInt32) (q : ℕ) :
    ((Market.trades (M.reach side limit) q).map Prod.snd).sum =
      min ((M.reach side limit).map MarketOrder.remaining).sum q := by
  rw [trades_eq h, sum_positive, sum_allot]

theorem Queued.reach (h : Queued M a) (side : Side) (limit : UInt32) :
    (crossing side limit (a.queue side.opposite)).map (MarketOrder.ofResting side.opposite) =
      (M.reach side limit).map MarketOrder.bare := by
  have hq := congrArg (List.filter fun o => crosses side limit o.price) (h side.opposite)
  rw [List.filter_map, List.filter_map] at hq
  exact hq

theorem Queued.allot (h : Queued M a) (side : Side) (limit : UInt32) (q : ℕ) :
    (allot openQty q (crossing side limit (a.queue side.opposite))).map
        (Prod.map (MarketOrder.ofResting side.opposite) id) =
      (allot MarketOrder.remaining q (M.reach side limit)).map (Prod.map MarketOrder.bare id) := by
  have hmap := congrArg (Allotment.allot MarketOrder.remaining q) (h.reach side limit)
  rw [allot_map, allot_map] at hmap
  exact hmap

/-- The loop's trades are the market's. -/
theorem Queued.trades (h : Queued M a) (hnum : M.Numbered) (side : Side) (limit : UInt32) (q : ℕ)
    (id : UInt64) :
    ((Allotment.allot openQty q (crossing side limit (a.queue side.opposite))).filter
        fun x => 0 < x.2).map
        (fun x => tradeOf side.opposite id x.1.orderId x.1.price (.ofNat x.2)) =
      (Market.trades (M.reach side limit) q).map (tradeWith side id) := by
  have hf := congrArg (fun l => (l.filter fun x => 0 < x.2).map (tradeWith side id))
    (h.allot side limit q)
  simp only [List.filter_map, List.map_map] at hf
  rw [trades_eq hnum]
  refine Eq.trans (List.map_congr_left fun x _ => ?_) hf
  simp [tradeWith, MarketOrder.ofResting]

/-- What the loop leaves open is what the market leaves open. -/
theorem Queued.left (h : Queued M a) (hnum : M.Numbered) (side : Side) (limit : UInt32) (q : ℕ) :
    q - ((crossing side limit (a.queue side.opposite)).map openQty).sum =
      q - ((Market.trades (M.reach side limit) q).map Prod.snd).sum := by
  have hs := congrArg (fun l => (l.map MarketOrder.remaining).sum) (h.reach side limit)
  simp only [List.map_map] at hs
  have hs : ((crossing side limit (a.queue side.opposite)).map openQty).sum =
    ((M.reach side limit).map MarketOrder.remaining).sum := hs
  rw [hs, sum_trades hnum]
  omega

/-! ### The queues after an order -/

@[simp] theorem settle_side (R : List MarketOrder) (q : ℕ) (o : MarketOrder) :
    (Market.settle R q o).side = o.side := by
  unfold Market.settle
  split <;> rfl

@[simp] theorem settle_price (R : List MarketOrder) (q : ℕ) (o : MarketOrder) :
    (Market.settle R q o).price = o.price := by
  unfold Market.settle
  split <;> rfl

@[simp] theorem settle_number (R : List MarketOrder) (q : ℕ) (o : MarketOrder) :
    (Market.settle R q o).number = o.number := by
  unfold Market.settle
  split <;> rfl

@[simp] theorem settle_owner (R : List MarketOrder) (q : ℕ) (o : MarketOrder) :
    (Market.settle R q o).owner = o.owner := by
  unfold Market.settle
  split <;> rfl

@[simp] theorem settle_name (R : List MarketOrder) (q : ℕ) (o : MarketOrder) :
    (Market.settle R q o).name = o.name := by
  unfold Market.settle
  split <;> rfl

/-- A trade leaves resting orders resting or filled, and all others as they are. -/
theorem settle_resting (R : List MarketOrder) (q : ℕ) (o : MarketOrder) :
    (Market.settle R q o).state = .resting ↔
      o.state = .resting ∧ (Market.settle R q o).remaining ≠ 0 := by
  simp only [state_eq_resting, Market.settle, MarketOrder.less]
  split
  · constructor
    · rintro ⟨hw, hr⟩
      exact ⟨⟨hw, fun h => hr (by rw [h, Nat.zero_sub])⟩, hr⟩
    · rintro ⟨⟨hw, -⟩, hr⟩
      exact ⟨hw, hr⟩
  · tauto

/-- Orders the limit does not reach keep what they have. -/
theorem settle_of_notMem {R : List MarketOrder} (h : o ∉ R) (q : ℕ) :
    Market.settle R q o = o := if_neg h

theorem resting_settled (R : List MarketOrder) (q : ℕ) (s : Side) :
    byPriority (fun o => s.rank o.price) ((M.orders.map (Market.settle R q)).filter
        fun o => o.state = .resting ∧ o.side = s) =
      ((M.resting s).map (Market.settle R q)).filter fun o => o.remaining ≠ 0 := by
  have hmap (l : List MarketOrder) :
      byPriority (fun o => s.rank o.price) (l.map (Market.settle R q)) =
        (byPriority (fun o => s.rank o.price) l).map (Market.settle R q) :=
    byPriority_map (fun o => by simp) l
  rw [List.filter_map, hmap, List.filter_map, Market.resting, ← byPriority_filter,
    List.filter_filter]
  refine congrArg (fun l => (byPriority _ l).map _) (List.filter_congr fun o _ => ?_)
  simp only [Function.comp, settle_resting, settle_side, Bool.decide_and]
  cases decide (o.state = .resting) <;> cases decide (o.side = s) <;> simp

/-- The resting orders once an order is in. -/
theorem resting_accept (conn : ConnId) (name : Bytes) (s : Side) :
    (M.accept conn name side limit q).1.resting s =
      let R := M.reach side limit
      let inc : MarketOrder := ⟨M.accepted + 1, conn, name, side, limit,
        q - ((Market.trades R q).map Prod.snd).sum, false⟩
      let rest := ((M.resting s).map (Market.settle R q)).filter fun o => o.remaining ≠ 0
      if inc.remaining ≠ 0 ∧ side = s then insertLast (fun o => s.rank o.price) inc rest
      else rest := by
  have hold := resting_settled (M := M) (M.reach side limit) q s
  simp only [Market.accept]
  rw [← hold, Market.resting, List.filter_append]
  split
  · next h =>
    obtain ⟨hleft, rfl⟩ := h
    rw [List.filter_cons_of_pos (by simpa [state_eq_resting, MarketOrder.less] using hleft),
      List.filter_nil, byPriority_concat]
    rfl
  · next h =>
    rw [List.filter_cons_of_neg (by simpa [state_eq_resting, MarketOrder.less] using h),
      List.filter_nil, List.append_nil]

/-- Taking from an entry is taking from its order. -/
theorem ofResting_reduced {x : Resting cap × ℕ} (hx : x.2 ≤ openQty x.1) (s : Side) :
    MarketOrder.ofResting s (reduced x) = (MarketOrder.ofResting s x.1).less x.2 := by
  have hlt := x.1.quantity.toNat_lt
  have hn : (UInt32.ofNat x.2).toNat = x.2 := UInt32.toNat_ofNat_of_lt' (lt_of_le_of_lt hx hlt)
  have hle : UInt32.ofNat x.2 ≤ x.1.quantity := by
    rw [UInt32.le_iff_toNat_le, hn]
    exact hx
  simp only [MarketOrder.ofResting, reduced, MarketOrder.less, UInt32.toNat_sub_of_le _ _ hle, hn]

/-- The opposite side after the sweep. -/
theorem Queued.swept (h : Queued M a) (hnum : M.Numbered) (side : Side) (limit : UInt32) (q : ℕ) :
    (((Allotment.allot openQty q (crossing side limit (a.queue side.opposite))).map reduced ++
        beyond side limit (a.queue side.opposite)).filter fun e => 0 < e.quantity).map
          (MarketOrder.ofResting side.opposite) =
      (((M.resting side.opposite).map (Market.settle (M.reach side limit) q)).filter
        fun o => o.remaining ≠ 0).map MarketOrder.bare := by
  set R := M.reach side limit with hR
  have hsplit : R ++ (M.resting side.opposite).filter (fun o => !crosses side limit o.price) =
      M.resting side.opposite := by
    have hs : Sorted (fun o => side.opposite.rank o.price) (M.resting side.opposite) :=
      sorted_byPriority _
    refine filter_append_filter_not (hs.imp fun {o o'} hoo ho => ?_)
    rw [RefBook.crosses_iff] at ho ⊢
    exact fun hlt => ho (lt_of_le_of_lt hoo hlt)
  -- what the limit reaches is handed out
  have hfront : ((Allotment.allot openQty q (crossing side limit (a.queue side.opposite))).map
      reduced).map (MarketOrder.ofResting side.opposite) =
        (R.map (Market.settle R q)).map MarketOrder.bare := by
    have hless := congrArg (List.map fun x : MarketOrder × ℕ => x.1.less x.2)
      (h.allot side limit q)
    rw [← hR, allot_reach hnum, ← hR] at hless
    simp only [List.map_map] at hless ⊢
    refine Eq.trans (List.map_congr_left fun x hx => ?_) (hless.trans (List.map_congr_left
      fun o ho => ?_))
    · exact ofResting_reduced (allot_le hx) side.opposite
    · simp only [Function.comp, Prod.map, id, Market.settle, if_pos ho]
      rfl
  -- what it does not reach stays
  have hback : (beyond side limit (a.queue side.opposite)).map
      (MarketOrder.ofResting side.opposite) =
        (((M.resting side.opposite).filter fun o => !crosses side limit o.price).map
          (Market.settle R q)).map MarketOrder.bare := by
    have hq := congrArg (List.filter fun o => !crosses side limit o.price) (h side.opposite)
    rw [List.filter_map, List.filter_map] at hq
    refine hq.trans
      (congrArg _ (Eq.trans (List.map_id _).symm (List.map_congr_left fun o ho => ?_)))
    refine (settle_of_notMem (fun hmem => ?_) q).symm
    have hno := (List.mem_filter.mp ho).2
    have hyes : crosses side limit o.price = true := (mem_reach.mp hmem).2.2.2
    simp [MarketOrder.bare, hyes] at hno
  have hpos : ∀ e : Resting cap, (decide (0 < e.quantity)) =
      decide ((MarketOrder.ofResting side.opposite e).remaining ≠ 0) := by
    intro e
    refine decide_eq_decide.mpr ?_
    exact UInt32.lt_iff_toNat_lt.trans Nat.pos_iff_ne_zero
  calc _ = (((Allotment.allot openQty q
          (crossing side limit (a.queue side.opposite))).map reduced ++
        beyond side limit (a.queue side.opposite)).map
          (MarketOrder.ofResting side.opposite)).filter (fun o => o.remaining ≠ 0) := by
        rw [List.filter_map]
        exact congrArg _ (List.filter_congr fun e _ => hpos e)
    _ = (((M.resting side.opposite).map (Market.settle R q)).map MarketOrder.bare).filter
          (fun o => o.remaining ≠ 0) := by
        rw [List.map_append, hfront, hback, ← List.map_append, ← List.map_append, hsplit]
    _ = _ := List.filter_map

/-- An order's own side is not traded. -/
theorem resting_own (side : Side) (limit : UInt32) (q : ℕ) :
    ((M.resting side).map (Market.settle (M.reach side limit) q)).filter
      (fun o => o.remaining ≠ 0) = M.resting side := by
  have hsame : (M.resting side).map (Market.settle (M.reach side limit) q) = M.resting side := by
    refine Eq.trans (List.map_congr_left fun o ho => ?_) (List.map_id _)
    refine settle_of_notMem (fun hm => ?_) q
    exact side.ne_opposite ((mem_resting.mp ho).2.2.symm.trans (mem_reach.mp hm).2.2.1)
  rw [hsame]
  refine List.filter_eq_self.mpr fun o ho => decide_eq_true ?_
  exact (state_eq_resting.mp (mem_resting.mp ho).2.1).2

theorem insertLast_ofResting (side : Side) (e : Resting cap) (P : List (Resting cap)) :
    (insertLast (Resting.rank side) e P).map (MarketOrder.ofResting side) =
      insertLast (fun o => side.rank o.price) (MarketOrder.ofResting side e)
        (P.map (MarketOrder.ofResting side)) :=
  insertLast_map (f := MarketOrder.ofResting side)
    (k := fun o : MarketOrder => side.rank o.price) (fun _ => rfl) e P

theorem insertLast_bare (side : Side) (o : MarketOrder) (l : List MarketOrder) :
    (insertLast (fun o => side.rank o.price) o l).map MarketOrder.bare =
      insertLast (fun o => side.rank o.price) o.bare (l.map MarketOrder.bare) :=
  insertLast_map (f := MarketOrder.bare)
    (k := fun o : MarketOrder => side.rank o.price) (fun _ => rfl) o l

/-- An order on the book is the order on the market: the same trades, and the same queues after. -/
theorem Queued.accept {a' : PriorityBook cap} {build : Build} {id : UInt64} {conn : ConnId}
    {ts : List Trade} {q : UInt32} (h : Queued M a) (hnum : M.Numbered) (hwf : a.WF)
    (hself : ∀ e ∈ a.queue side.opposite, ¬ side.opposite.rank e.price < side.opposite.rank limit →
      e.participantId ≠ conn) (hid : id.toNat = M.accepted + 1)
    (hadd : a.add build side limit q id conn = .ok (ts, a')) (name : Bytes) :
    ts = (Market.trades (M.reach side limit) q.toNat).map (tradeWith side id) ∧
      Queued (M.accept conn name side limit q.toNat).1 a' := by
  obtain ⟨s, free, r, -, hr, hts, ha'⟩ := PriorityBook.add_cases hadd
  set inc : Resting cap := ⟨s, id, limit, q, a.sequence, conn⟩
  obtain ⟨htrades, hleft, hqueue⟩ := sweep_allot inc q (hwf.sorted side.opposite)
    (hwf.positive side.opposite) hself
  rw [hr] at htrades hleft hqueue
  rw [h.left hnum side limit q.toNat] at hleft
  have hopp := h.swept hnum side limit q.toNat
  rw [← hqueue] at hopp
  have hown : (a.queue side).map (MarketOrder.ofResting side) =
      (((M.resting side).map (Market.settle (M.reach side limit) q.toNat)).filter
        fun o => o.remaining ≠ 0).map MarketOrder.bare := by
    rw [resting_own]
    exact h side
  have hne := side.ne_opposite
  refine ⟨by rw [hts, htrades, h.trades hnum], ?_⟩
  rcases ha' with ⟨hpos, rfl⟩ | ⟨hzero, rfl⟩
  · have hrem : q.toNat - ((Market.trades (M.reach side limit) q.toNat).map Prod.snd).sum ≠ 0 := by
      rw [← hleft]
      exact (UInt32.lt_iff_toNat_lt.mp hpos).ne'
    refine forall_side side ?_ ?_
    · rw [resting_accept]
      simp only [PriorityBook.rest, PriorityBook.swept, Function.update_self,
        Function.update_of_ne hne]
      rw [if_pos ⟨hrem, trivial⟩, ← hleft, insertLast_ofResting, insertLast_bare, hown]
      simp only [MarketOrder.ofResting, MarketOrder.bare, hid]
    · rw [resting_accept]
      simp only [PriorityBook.rest, PriorityBook.swept, Function.update_self,
        Function.update_of_ne hne.symm]
      rw [if_neg fun hc => hne hc.2]
      exact hopp
  · have hrem : q.toNat - ((Market.trades (M.reach side limit) q.toNat).map Prod.snd).sum = 0 := by
      rw [← hleft, hzero]
      rfl
    refine forall_side side ?_ ?_
    · rw [resting_accept]
      simp only [PriorityBook.swept, Function.update_of_ne hne]
      rw [if_neg fun hc => hc.1 hrem]
      exact hown
    · rw [resting_accept]
      simp only [PriorityBook.swept, Function.update_self]
      rw [if_neg fun hc => hc.1 hrem]
      exact hopp

end Market

end MarketMakerOps.Exchange
