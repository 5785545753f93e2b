import MarketMakerOps.Exchange.Capacity

/-!
The level reserve of a debug build.

* `bidAt k`: connection `k` bids one at `k + 1` ticks, a price of its own;
* `Stacked k s`: the first `k` of them rest on as many levels;
* `level_reserve_iff`: the reserve assertions are safe exactly for soft caps up
  to `kDefaultMaxPriceLevels`.
-/

namespace MarketMakerOps.Exchange

open Decimal Engine Fallible

variable {cap softCap : Nat}

/-- Connection `k` bids one at `k + 1` ticks. -/
def bidAt (k : Nat) : Event := .line (UInt64.ofNat k) (newOrderLine idA .buy (k + 1 : Nat) 1 idA)

/-- The first `k` bids rest. -/
structure Stacked (k softCap : Nat) (s : Session cap) (a : PriorityBook cap) : Prop where
  soft : s.venue.softCap = softCap
  accepted : s.accepted = k
  synced : Synced k s.venue a
  asks : a.queue .sell = []
  bids : (a.queue .buy).length = k
  prices : ∀ e ∈ a.queue .buy, e.price.toNat ≤ k
  distinct : ((a.queue .buy).map Resting.price).Nodup
  strangers : ∀ c cid, k ≤ c.toNat → s.venue.tables.record c cid = none

section Stack

variable {k : Nat} {s : Session cap} {a : PriorityBook cap}

theorem Stacked.levelCount (h : Stacked k softCap s a) : levelCount (a.queue .buy) = k := by
  rw [Engine.levelCount, h.distinct.dedup, List.length_map, h.bids]

theorem toNat_price (hk : k < 2 ^ 31) : (UInt32.ofNat (k + 1)).toNat = k + 1 :=
  UInt32.toNat_ofNat_of_lt' (by simp only [UInt32.size]; omega)

/-- The next price is new. -/
theorem Stacked.newPrice (h : Stacked k softCap s a) (hk : k < 2 ^ 31) :
    UInt32.ofNat (k + 1) ∉ (a.queue .buy).map Resting.price := by
  intro hm
  obtain ⟨e, he, heq⟩ := List.mem_map.mp hm
  have hle := h.prices e he
  rw [heq, toNat_price hk] at hle
  omega

theorem Stacked.accepts (h : Stacked k softCap s a) (hk : k < 2 ^ 31) (hroom : k < softCap) :
    Accepts s.venue.cleared (UInt64.ofNat k) (newOrderLine idA .buy (k + 1 : Nat) 1 idA)
      idA.bytes .buy (UInt32.ofNat (k + 1)) 1 := by
  have hticks : ticks? (k + 1 : Nat) = some (UInt32.ofNat (k + 1)) := by
    have hmax : k + 1 ≤ uint32Max := by
      simp only [uint32Max]
      omega
    rw [ticks?, if_neg (by omega), toUint32?, Int.toNat_natCast, if_pos hmax]
  have hconn : (UInt64.ofNat k).toNat = k := UInt64.toNat_ofNat_of_lt' (show k < 2 ^ 64 by omega)
  have hlive : ∀ e ∈ s.venue.tables.byEngineId.entries, e.2.side = .buy := by
    intro e he
    obtain ⟨side, r, hr, hid⟩ := h.synced.holds.live e.1 e.2 (AList.mem_lookup_iff.mpr he)
    obtain ⟨lo, hlo, hm⟩ := h.synced.holds.queued side r hr
    rw [hid, Tables.live, AList.mem_lookup_iff.mpr he, Option.some_inj] at hlo
    cases side with
    | buy => rw [hlo, hm.side]
    | sell =>
      rw [h.asks] at hr
      cases hr
  have hkeys := h.synced.keys_perm.length_eq
  have hqueue := fun s => congrArg List.length (h.synced.rep.resting_eq h.synced.wf s)
  simp only [List.length_map, List.length_append] at hkeys hqueue
  rw [hqueue, hqueue, h.bids, h.asks] at hkeys
  refine ⟨isNewOrder_line idA idA .buy _ _ _ _ hticks rfl, by decide, h.strangers _ _ hconn.ge,
    ?_, ?_⟩
  · show s.venue.tables.byEngineId.keys.length < s.venue.softCap
    rw [hkeys, h.soft]
    exact hroom
  · refine List.any_eq_false.mpr fun e he => ?_
    simp [hlive e he]

/-- While the reserve lasts the next bid rests too. -/
theorem Stacked.step (h : Stacked k softCap s a) (hk : k < kDefaultMaxPriceLevels)
    (hroom : k < softCap) (hcap : softCap < cap) :
    ∃ s' a', s.step .debug (bidAt k) = .ok s' ∧ Stacked (k + 1) softCap s' a' := by
  simp only [kDefaultMaxPriceLevels] at hk
  have hk31 : k < 2 ^ 31 := by omega
  have hacc := h.accepts hk31 hroom
  have hsync := h.synced.cleared
  have hfree := hsync.rep.free_ne_nil hsync.wf
    (hsync.restingCount_lt hacc.room (show s.venue.softCap < cap from h.soft ▸ hcap))
  obtain ⟨slot, free, hfree⟩ := List.exists_cons_of_ne_nil hfree
  set p := UInt32.ofNat (k + 1) with hp
  have hlevel : levelCheck .debug .buy p (a.queue .buy) = .ok () := by
    rw [levelCheck, if_neg (h.newPrice hk31), h.levelCount, kDefaultMaxPriceLevels,
      decide_eq_true hk]
    rfl
  have hadd : a.add .debug .buy p 1 s.venue.nextEngineId (UInt64.ofNat k) = .ok ([], _) :=
    add_rests slot free hfree (by rw [Side.opposite, h.asks]; rfl) (by decide) hlevel rfl
  obtain ⟨x, hx, -⟩ := (addLimitOrder_sim .debug .buy Tables.onTrade p 1 s.venue.nextEngineId
    (UInt64.ofNat k) (s.venue.cleared.entered (UInt64.ofNat k) idA.bytes .buy p 1) hsync.rep
    (perm_finRange_iff.mp hsync.wf.slots).1).of_ok_right hadd
  obtain ⟨v', hsub⟩ : ∃ v', s.venue.cleared.submit .debug (UInt64.ofNat k) idA.bytes .buy p 1 =
      .ok v' := ⟨{ s.venue.cleared with
        nextEngineId := s.venue.nextEngineId + 1, tables := x.1, book := x.2 },
      bind_eq_ok.mpr ⟨x, hx, rfl⟩⟩
  have hn : k + 1 < 2 ^ 64 := by omega
  obtain ⟨ts, a', hadd', -, hT, hsync'⟩ := hsync.accept hn hacc hsub
  rw [show s.venue.cleared.nextEngineId = s.venue.nextEngineId from rfl, hadd] at hadd'
  cases hadd'
  have hv : s.venue.cleared.handle .debug (bidAt k) = .ok v' := hacc.handle.trans hsub
  have hperm := Priority.insertLast_perm (Resting.rank .buy)
    (⟨slot, s.venue.nextEngineId, p, 1, a.sequence, UInt64.ofNat k⟩ : Resting cap) (a.queue .buy)
  refine ⟨_, _, Session.step_eq_ok.mpr ⟨v', hv, rfl⟩, ?_, ?_, hsync', ?_, ?_, ?_, ?_, ?_⟩
  · exact (handle_softCap hv).trans h.soft
  · rw [Session.accepted_concat, h.accepted, hsync.acks_accept rfl hsub]
  · exact h.asks
  · exact hperm.length_eq.trans (congrArg Nat.succ h.bids)
  · intro e he
    rcases List.mem_cons.mp (hperm.mem_iff.mp he) with rfl | he
    · exact (toNat_price hk31).le
    · exact (h.prices e he).trans (Nat.le_succ k)
  · refine (hperm.map Resting.price).nodup_iff.mpr (List.nodup_cons.mpr ⟨?_, h.distinct⟩)
    exact h.newPrice hk31
  · intro c cid hc
    have hne : c ≠ UInt64.ofNat k := by
      rintro rfl
      rw [UInt64.toNat_ofNat_of_lt' (show k < 2 ^ 64 by omega)] at hc
      omega
    show v'.tables.record c cid = none
    rw [hT, Tables.afterTrades, List.foldl_nil, entered_record, if_neg fun hc' => hne hc'.1]
    exact h.strangers c cid (by omega)

/-- The bid beyond the reserve fails its assertion. -/
theorem Stacked.full (h : Stacked kDefaultMaxPriceLevels softCap s a)
    (hroom : kDefaultMaxPriceLevels < softCap) (hcap : softCap < cap) :
    s.step .debug (bidAt kDefaultMaxPriceLevels) = .error .bidLevelsExceeded := by
  have hk31 : kDefaultMaxPriceLevels < 2 ^ 31 := by decide
  have hacc := h.accepts hk31 hroom
  have hsync := h.synced.cleared
  have hfree := hsync.rep.free_ne_nil hsync.wf
    (hsync.restingCount_lt hacc.room (show s.venue.softCap < cap from h.soft ▸ hcap))
  obtain ⟨slot, free, hfree⟩ := List.exists_cons_of_ne_nil hfree
  set p := UInt32.ofNat (kDefaultMaxPriceLevels + 1)
  have hlevel : levelCheck .debug .buy p (a.queue .buy) = .error .bidLevelsExceeded := by
    rw [levelCheck, if_neg (h.newPrice hk31), h.levelCount]
    rfl
  have hadd : a.add .debug .buy p 1 s.venue.cleared.nextEngineId
      (UInt64.ofNat kDefaultMaxPriceLevels) = .error .bidLevelsExceeded := by
    have hsweep : ∀ inc : Resting cap, sweep .sell inc 1 (a.queue .sell) = ⟨[], 1, [], []⟩ := by
      intro inc
      rw [h.asks]
      rfl
    simp only [PriorityBook.add, hfree, Side.opposite, hsweep]
    rw [if_pos (by decide)]
    show levelCheck .debug .buy p (a.queue .buy) >>= _ = _
    rw [hlevel]
    rfl
  have hsim := addLimitOrder_sim .debug .buy Tables.onTrade p 1 s.venue.cleared.nextEngineId
    (UInt64.ofNat kDefaultMaxPriceLevels) (s.venue.cleared.entered
    (UInt64.ofNat kDefaultMaxPriceLevels) idA.bytes .buy p 1) hsync.rep
    (perm_finRange_iff.mp hsync.wf.slots).1
  rw [bidAt, Session.step, hacc.handle, Venue.submit, hsim.of_error_right hadd]
  rfl

/-- Bids at that many prices. -/
def bidsAt (k : Nat) : List Event := (List.range k).map bidAt

theorem bidsAt_stack (hcap : softCap < cap) {k : Nat} (hk : k ≤ kDefaultMaxPriceLevels)
    (hroom : k ≤ softCap) : ∃ s a, session .debug cap softCap (bidsAt k) = .ok s ∧
      Stacked k softCap s a := by
  induction k with
  | zero =>
    have hpos : 0 < cap := by omega
    obtain ⟨pool, hpool, -⟩ := OrderPool.new_spec hpos
    obtain ⟨v, hv⟩ : ∃ v, Venue.new cap softCap = .ok v := by
      refine ⟨⟨softCap, 1, ⟨false, 0, ∅, ∅, []⟩, ⟨pool, [], [], ∅, 0⟩⟩, ?_⟩
      rw [Venue.new, OrderBook.new, hpool]
      rfl
    obtain ⟨hsoft, hsync⟩ := Venue.new_eq_ok hv
    refine ⟨Session.start v, _, by rw [session, hv]; rfl, hsoft, rfl, hsync, rfl, rfl,
      fun e he => (List.not_mem_nil he).elim, List.nodup_nil, fun c cid _ => ?_⟩
    obtain ⟨b, -, hv⟩ := bind_eq_ok.mp hv
    cases hv
    rfl
  | succ k ih =>
    obtain ⟨s, a, hs, h⟩ := ih (by omega) (by omega)
    obtain ⟨s', a', hs', h'⟩ := h.step (by omega) (by omega) hcap
    refine ⟨s', a', ?_, h'⟩
    rw [bidsAt, List.range_succ, List.map_append]
    exact session_snoc hs hs'

end Stack

/-- No run of a debug build with fewer than `2 ^ 64` accepted orders fails an assertion of the level
reserve, exactly when the soft cap is within the reserve. -/
theorem level_reserve_iff (hcap : softCap < cap) :
    (∀ events (s : Session cap), session .debug cap softCap events = .ok s → s.accepted < 2 ^ 64 →
      ∀ ev f, s.step .debug ev = .error f → f.isLevels = false) ↔
    softCap ≤ kDefaultMaxPriceLevels := by
  constructor
  · intro h
    by_contra hbig
    obtain ⟨s, a, hs, hst⟩ := bidsAt_stack hcap le_rfl (not_le.mp hbig).le
    have hlt : s.accepted < 2 ^ 64 := by
      rw [hst.accepted]
      decide
    have := h _ s hs hlt _ _ (hst.full (not_le.mp hbig) hcap)
    cases this
  · intro hsmall events s h hlt ev f hstep
    obtain ⟨a, hs⟩ := session_synced h hlt
    cases hv : s.venue.cleared.handle .debug ev with
    | ok v' =>
      rw [Session.step, hv] at hstep
      cases hstep
    | error g =>
      have hsoft : s.venue.cleared.softCap = softCap := session_softCap h
      obtain ⟨-, -, hbig⟩ := hs.cleared.handle_error (hsoft.symm ▸ hcap) hv
      rw [hsoft] at hbig
      omega

theorem level_reserve_iff_small :
    (∀ events (s : Session 3), session .debug 3 2 events = .ok s → s.accepted < 2 ^ 64 →
      ∀ ev f, s.step .debug ev = .error f → f.isLevels = false) ↔ 2 ≤ kDefaultMaxPriceLevels :=
  level_reserve_iff (by decide)

/-- One soft cap beyond the reserve. -/
theorem level_reserve_exceeded : ∃ s : Session 4098,
    session .debug 4098 4097 (bidsAt 4096) = .ok s ∧
    s.step .debug (bidAt 4096) = .error .bidLevelsExceeded := by
  obtain ⟨s, a, hs, hst⟩ := bidsAt_stack (show 4097 < 4098 by decide)
    (show 4096 ≤ kDefaultMaxPriceLevels by decide)
    (by decide)
  exact ⟨s, hs, hst.full (by decide) (by decide)⟩

end MarketMakerOps.Exchange
