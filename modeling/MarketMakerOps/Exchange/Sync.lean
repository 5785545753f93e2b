import MarketMakerOps.Exchange.Handled
import MarketMakerOps.Engine.Relocation

/-!
Venue tables and matching core in step.

* `Synced n v a`: after `n` accepted orders, the book of `v` holds `a`, and the
  tables are the content of its queues;
* `Synced.accept`, `Synced.cancel`, `Synced.drop`: each kind of call keeps it;
* `Synced.handle`: so does every call that keeps the count below `2 ^ 64`.
-/

namespace MarketMakerOps.Exchange

open Decimal Engine Fallible

variable {cap : Nat}

/-- Tables and core in step after `n` accepted orders. -/
structure Synced (n : Nat) (v : Venue cap) (a : PriorityBook cap) : Prop where
  rep : v.book.Rep a
  wf : a.WF
  indexed : a.Indexed
  clock : v.nextEngineId = UInt64.ofNat (n + 1)
  recorded : v.tables.Recorded n
  holds : v.tables.Holds a.queue

namespace Tables

variable {T T' : Tables} {n : Nat}

theorem Recorded.congr (h : T.Recorded n) (hl : ∀ id, T'.live id = T.live id)
    (hr : ∀ c cid, T'.record c cid = T.record c cid) : T'.Recorded n :=
  ⟨by simpa only [hl, hr] using h.entry, by simpa only [hl, hr] using h.resting,
    by simpa only [hr] using h.issued, by simpa only [hr] using h.inj⟩

theorem Holds.congr {Q Q' : Side → List (Resting cap)} (h : T.Holds Q)
    (hl : ∀ id, T'.live id = T.live id) (hQ : ∀ s e, e ∈ Q' s ↔ e ∈ Q s) : T'.Holds Q' := by
  refine ⟨fun s e he => ?_, fun id lo hlo => ?_⟩
  · rw [hl]
    exact h.queued s e ((hQ s e).mp he)
  · rw [hl] at hlo
    obtain ⟨s, e, he, hid⟩ := h.live id lo hlo
    exact ⟨s, e, (hQ s e).mpr he, hid⟩

/-- Entering an order under an unused id. -/
theorem Recorded.enter {conn : ConnId} {cid : Bytes} {id : UInt64} {lo : LiveOrder}
    (h : T.Recorded n) (hid : id.toNat = n + 1) (hfresh : T.record conn cid = none)
    (howner : lo.owner = conn) (hcid : lo.clientOrderId = cid) (hex : lo.exchangeId = exchangeId id)
    (hl : ∀ id', T'.live id' = if id' = id then some lo else T.live id')
    (hr : ∀ c cid', T'.record c cid' = if c = conn ∧ cid' = cid then
      some ⟨.resting, exchangeId id, id⟩ else T.record c cid') : T'.Recorded (n + 1) := by
  have hnew : ∀ c cid' r, T.record c cid' = some r → r.engineId ≠ id := by
    intro c cid' r hrec he
    have := (h.issued c cid' r hrec).2.2
    rw [he, hid] at this
    omega
  refine ⟨?_, ?_, ?_, ?_⟩
  · intro id' lo' hlo'
    rw [hl] at hlo'
    split at hlo'
    · next he =>
      cases hlo'
      rw [he, hr, if_pos ⟨howner, hcid⟩]
      exact ⟨hex, _, rfl, rfl, rfl⟩
    · obtain ⟨hex', r, hrec, hrid, hst⟩ := h.entry id' lo' hlo'
      refine ⟨hex', r, ?_, hrid, hst⟩
      rw [hr, if_neg]
      · exact hrec
      · rintro ⟨h1, h2⟩
        rw [h1, h2, hfresh] at hrec
        cases hrec
  · intro c cid' r hrec hst
    rw [hr] at hrec
    split at hrec
    · next hkey =>
      cases hrec
      rw [hl, if_pos rfl]
      exact ⟨lo, rfl, howner.trans hkey.1.symm, hcid.trans hkey.2.symm⟩
    · obtain ⟨lo', hlo', ho, hc⟩ := h.resting c cid' r hrec hst
      refine ⟨lo', ?_, ho, hc⟩
      rw [hl, if_neg (hnew c cid' r hrec)]
      exact hlo'
  · intro c cid' r hrec
    rw [hr] at hrec
    split at hrec
    · cases hrec
      show exchangeId id = exchangeId id ∧ 1 ≤ id.toNat ∧ id.toNat ≤ n + 1
      exact ⟨rfl, by omega, by omega⟩
    · obtain ⟨h1, h2, h3⟩ := h.issued c cid' r hrec
      exact ⟨h1, h2, by omega⟩
  · intro c₁ cid₁ r₁ c₂ cid₂ r₂ h₁ h₂ heq
    rw [hr] at h₁ h₂
    split at h₁
    · next hk₁ =>
      cases h₁
      split at h₂
      · next hk₂ => exact ⟨hk₁.1.trans hk₂.1.symm, hk₁.2.trans hk₂.2.symm⟩
      · exact absurd heq.symm (hnew _ _ _ h₂)
    · split at h₂
      · cases h₂
        exact absurd heq (hnew _ _ _ h₁)
      · exact h.inj c₁ cid₁ r₁ c₂ cid₂ r₂ h₁ h₂ heq

/-- Cancelling the order of a resting record. -/
theorem Recorded.cancel {conn : ConnId} {cid : Bytes} {r : ClientRecord} (h : T.Recorded n)
    (hrec : T.record conn cid = some r)
    (hl : ∀ id, T'.live id = if id = r.engineId then none else T.live id)
    (hr : ∀ c cid', T'.record c cid' = if c = conn ∧ cid' = cid then
      some { r with state := .cancelled } else T.record c cid') : T'.Recorded n := by
  refine ⟨?_, ?_, ?_, ?_⟩
  · intro id lo hlo
    rw [hl] at hlo
    split at hlo
    · cases hlo
    · next hid =>
      obtain ⟨hex, r', hr', hrid, hst⟩ := h.entry id lo hlo
      refine ⟨hex, r', ?_, hrid, hst⟩
      rw [hr, if_neg]
      · exact hr'
      · rintro ⟨h1, h2⟩
        rw [h1, h2, hrec, Option.some_inj] at hr'
        exact hid (hrid ▸ hr' ▸ rfl)
  · intro c cid' r' hr' hst
    rw [hr] at hr'
    split at hr'
    · cases hr'
      cases hst
    · next hkey =>
      obtain ⟨lo, hlo, ho, hc⟩ := h.resting c cid' r' hr' hst
      refine ⟨lo, ?_, ho, hc⟩
      rw [hl, if_neg]
      · exact hlo
      · exact fun he => hkey (h.inj c cid' r' conn cid r hr' hrec he)
  · intro c cid' r' hr'
    rw [hr] at hr'
    split at hr'
    · cases hr'
      exact h.issued conn cid r hrec
    · exact h.issued c cid' r' hr'
  · have hold : ∀ c cid' r', T'.record c cid' = some r' →
        ∃ r'', T.record c cid' = some r'' ∧ r''.engineId = r'.engineId := by
      intro c cid' r' hr'
      rw [hr] at hr'
      split at hr'
      · next hkey =>
        cases hr'
        exact ⟨r, hkey.1 ▸ hkey.2 ▸ hrec, rfl⟩
      · exact ⟨r', hr', rfl⟩
    intro c₁ cid₁ r₁ c₂ cid₂ r₂ h₁ h₂ heq
    obtain ⟨r₁', h₁', e₁⟩ := hold c₁ cid₁ r₁ h₁
    obtain ⟨r₂', h₂', e₂⟩ := hold c₂ cid₂ r₂ h₂
    exact h.inj c₁ cid₁ r₁' c₂ cid₂ r₂' h₁' h₂' (e₁.trans (heq.trans e₂.symm))

/-- Forgetting a connection with its live orders and records. -/
theorem Recorded.drop {conn : ConnId} (h : T.Recorded n)
    (hl : ∀ id, T'.live id = (T.live id).filter fun lo => lo.owner ≠ conn)
    (hr : ∀ c cid, T'.record c cid = if c = conn then none else T.record c cid) :
    T'.Recorded n := by
  have hrec : ∀ {c cid r}, T'.record c cid = some r → c ≠ conn ∧ T.record c cid = some r := by
    intro c cid r h'
    rw [hr] at h'
    split at h'
    · cases h'
    · next hc => exact ⟨hc, h'⟩
  have hlive : ∀ {id lo}, T'.live id = some lo ↔ T.live id = some lo ∧ lo.owner ≠ conn := by
    intro id lo
    rw [hl, Option.filter_eq_some_iff]
    simp
  refine ⟨?_, ?_, ?_, ?_⟩
  · intro id lo hlo
    obtain ⟨hlo, ho⟩ := hlive.mp hlo
    rw [hr, if_neg ho]
    exact h.entry id lo hlo
  · intro c cid r h' hst
    obtain ⟨hc, h'⟩ := hrec h'
    obtain ⟨lo, hlo, ho, hcid⟩ := h.resting c cid r h' hst
    exact ⟨lo, hlive.mpr ⟨hlo, ho ▸ hc⟩, ho, hcid⟩
  · intro c cid r h'
    exact h.issued c cid r (hrec h').2
  · intro c cid r c' cid' r' h₁ h₂
    exact h.inj c cid r c' cid' r' (hrec h₁).2 (hrec h₂).2

end Tables

section Enter

variable (v : Venue cap) (conn : ConnId) (cid : Bytes) (side : OrderSide) (p q : UInt32)

/-- The table entry of an accepted order. -/
def Venue.newOrder : LiveOrder := ⟨conn, cid, exchangeId v.nextEngineId, side, p, q⟩

theorem entered_live (id : UInt64) : (v.entered conn cid side p q).live id =
    if id = v.nextEngineId then some (v.newOrder conn cid side p q) else v.tables.live id :=
  lookup_insert_ite _ _ _ _

theorem entered_record (c : ConnId) (cid' : Bytes) :
    (v.entered conn cid side p q).record c cid' = if c = conn ∧ cid' = cid then
      some ⟨.resting, exchangeId v.nextEngineId, v.nextEngineId⟩
      else v.tables.record c cid' := Tables.record_insert rfl c cid'

theorem entered_sent : (v.entered conn cid side p q).sent =
    v.tables.sent ++ [(conn, .ack cid (exchangeId v.nextEngineId))] := rfl

end Enter

section Steps

variable {build : Build} {v v' : Venue cap} {a : PriorityBook cap} {n : Nat} {conn : ConnId}
  {payload cid : Bytes} {side : OrderSide} {p q : UInt32}

theorem Synced.live_of_mem (h : Synced n v a) {s : Side} {e : Resting cap} (he : e ∈ a.queue s) :
    1 ≤ e.orderId.toNat ∧ e.orderId.toNat ≤ n := by
  obtain ⟨lo, hlo, -⟩ := h.holds.queued s e he
  exact h.recorded.live_issued hlo

/-- The next engine id, before the counter wraps. -/
theorem Synced.nextEngineId (h : Synced n v a) (hn : n + 1 < 2 ^ 64) :
    v.nextEngineId.toNat = n + 1 := by
  rw [h.clock, UInt64.toNat_ofNat_of_lt' hn]

theorem Synced.next_fresh (h : Synced n v a) (hn : n + 1 < 2 ^ 64) {s : Side} {e : Resting cap}
    (he : e ∈ a.queue s) : e.orderId ≠ v.nextEngineId := by
  intro heq
  have := (h.live_of_mem he).2
  rw [heq, h.nextEngineId hn] at this
  omega

/-- The ids of one side's queue are distinct, and distinct from the other side's. -/
theorem ids_nodup (hwf : a.WF) (hix : a.Indexed) (side : Side) :
    ((a.queue side).map Resting.orderId ++ (a.queue side.opposite).map Resting.orderId).Nodup := by
  have hone : ∀ s, ((a.queue s).map Resting.orderId).Nodup := fun s =>
    List.Nodup.map_on (fun e he f hf heq => (hix.id_inj hwf he hf heq).2)
      (List.Nodup.of_map _ (hwf.nodup s))
  refine List.nodup_append.mpr ⟨hone side, hone side.opposite, ?_⟩
  intro x hx y hy hxy
  obtain ⟨e, he, rfl⟩ := List.mem_map.mp hx
  obtain ⟨f, hf, rfl⟩ := List.mem_map.mp hy
  exact side.ne_opposite (hix.id_inj hwf he hf hxy).1

theorem Synced.ownIds (h : Synced n v a) (hn : n + 1 < 2 ^ 64) (side : Side) {inc : Resting cap}
    (hid : inc.orderId = v.nextEngineId) :
    Tables.OwnIds inc (a.queue side) (a.queue side.opposite) := by
  refine List.nodup_cons.mpr ⟨fun hm => ?_, ids_nodup h.wf h.indexed side⟩
  rcases List.mem_append.mp hm with hm | hm <;> obtain ⟨e, he, heq⟩ := List.mem_map.mp hm <;>
    exact h.next_fresh hn he (heq.trans hid)

/-- The pre-check rules out every resting order the incoming one could meet. -/
theorem Synced.noSelf (h : Synced n v a) (hno : v.tables.wouldSelfCross conn side p = false) :
    ∀ e ∈ a.queue side.opposite, ¬ side.opposite.rank e.price < side.opposite.rank p →
      e.participantId ≠ conn := by
  intro e he hcross howner
  obtain ⟨lo, hlo, hm⟩ := h.holds.queued side.opposite e he
  have hmem : (⟨e.orderId, lo⟩ : Sigma fun _ : UInt64 => LiveOrder) ∈
      v.tables.byEngineId.entries := AList.mem_lookup_iff.mp hlo
  have hfalse := List.any_eq_false.mp hno _ hmem
  simp only [decide_eq_true_eq, not_and, not_or] at hfalse
  obtain ⟨h1, h2⟩ := hfalse (hm.owner.trans howner)
  obtain ⟨hle, hge⟩ := Tables.price_le_of_crossing hcross
  cases side with
  | buy => exact h1 rfl hm.side (hm.priceTicks ▸ hle rfl)
  | sell => exact h2 rfl hm.side (hm.priceTicks ▸ hge rfl)

/-- Records and live orders, the new one among them. -/
theorem Synced.recorded_entered (h : Synced n v a) (side : OrderSide) (p q : UInt32)
    (hn : n + 1 < 2 ^ 64) (hfresh : v.tables.record conn cid = none) :
    (v.entered conn cid side p q).Recorded (n + 1) :=
  h.recorded.enter (h.nextEngineId hn) hfresh rfl rfl rfl (entered_live v conn cid side p q)
    (entered_record v conn cid side p q)

/-- The table holds the new order next to the queues. -/
theorem Synced.enter (h : Synced n v a) (side : OrderSide) (cid : Bytes) (hn : n + 1 < 2 ^ 64)
    (hq : q ≠ 0) (inc : Resting cap) (hid : inc.orderId = v.nextEngineId) (hprice : inc.price = p)
    (hpid : inc.participantId = conn) : (v.entered conn cid side p q).Holds
      (Tables.midway side inc q (a.queue side) (a.queue side.opposite)) := by
  refine ⟨?_, ?_⟩
  · have hold : ∀ s, ∀ e ∈ a.queue s, ∃ lo, (v.entered conn cid side p q).live e.orderId = some lo ∧
        Tables.Mirrors s e lo := by
      intro s e he
      rw [entered_live, if_neg (h.next_fresh hn he)]
      exact h.holds.queued s e he
    refine forall_side side ?_ ?_ <;> intro e he
    · simp only [Tables.midway, if_true, hq, if_false, List.mem_cons] at he
      rcases he with rfl | he
      · refine ⟨_, (entered_live v conn cid side p q _).trans (if_pos hid), ⟨?_, rfl, ?_, rfl⟩⟩
        · exact hpid.symm
        · exact hprice.symm
      · exact hold side e he
    · simp only [Tables.midway, side.ne_opposite.symm, if_false] at he
      exact hold side.opposite e he
  · intro id lo hlo
    rw [entered_live] at hlo
    split at hlo
    · next heq =>
      exact ⟨side, { inc with quantity := q }, by simp [Tables.midway, hq], hid.trans heq.symm⟩
    · obtain ⟨s, e, he, heid⟩ := h.holds.live id lo hlo
      refine ⟨s, e, ?_, heid⟩
      rcases Side.eq_or_opposite s side with rfl | rfl
      · simp [Tables.midway, hq, he]
      · simpa [Tables.midway, side.ne_opposite.symm] using he

/-- The queues after the book has rested or released the incoming order. -/
theorem mem_queue_of_add {a' : PriorityBook cap} {side : Side} {s : Fin cap} {free : List (Fin cap)}
    {inc : Resting cap} {r : SweepResult cap}
    (ha' : (0 < r.left ∧ a' = (a.swept free side.opposite r).rest side
        { inc with quantity := r.left }) ∨
      (r.left = 0 ∧ a' = { a.swept free side.opposite r with
        free := s :: (a.swept free side.opposite r).free })) (t : Side) (e : Resting cap) :
    e ∈ a'.queue t ↔ e ∈ Tables.midway side inc r.left (a.queue side) r.queue t := by
  have hne := side.ne_opposite
  rcases ha' with ⟨hleft, rfl⟩ | ⟨hleft, rfl⟩
  · have h0 : r.left ≠ 0 := UInt32.pos_iff_ne_zero.mp hleft
    rcases Side.eq_or_opposite t side with rfl | rfl
    · simp [PriorityBook.rest, PriorityBook.swept, Tables.midway, hne, h0]
    · simp [PriorityBook.rest, PriorityBook.swept, Tables.midway, hne.symm]
  · rcases Side.eq_or_opposite t side with rfl | rfl
    · simp [PriorityBook.swept, Tables.midway, hne, hleft]
    · simp [PriorityBook.swept, Tables.midway, hne.symm]

/-- A submitted order, on the priority book: the callback has run on every trade. -/
theorem submit_spec (hrep : v.book.Rep a) (hwf : a.WF)
    (hsub : v.submit build conn cid side p q = .ok v') : ∃ ts a',
      a.add build side p q v.nextEngineId conn = .ok (ts, a') ∧ v'.book.Rep a' ∧
      v'.tables = (v.entered conn cid side p q).afterTrades ts ∧
      v'.nextEngineId = v.nextEngineId + 1 ∧ v'.softCap = v.softCap := by
  obtain ⟨⟨T, b⟩, hadd, hv'⟩ := bind_eq_ok.mp hsub
  cases hv'
  obtain ⟨⟨ts, a'⟩, hadd', hT, hrep'⟩ := (addLimitOrder_sim build side Tables.onTrade p q
    v.nextEngineId conn (v.entered conn cid side p q) hrep
    (perm_finRange_iff.mp hwf.slots).1).of_ok_left hadd
  exact ⟨ts, a', hadd', hrep', hT, rfl, rfl⟩

/-- An accepted order: all its trades are fillable, and tables and core end in step. -/
theorem Synced.accept (h : Synced n v a) (hn : n + 1 < 2 ^ 64)
    (hacc : Accepts v conn payload cid side p q)
    (hsub : v.submit build conn cid side p q = .ok v') : ∃ ts a',
      a.add build side p q v.nextEngineId conn = .ok (ts, a') ∧
      (v.entered conn cid side p q).Fills ts ∧
      v'.tables = (v.entered conn cid side p q).afterTrades ts ∧ Synced (n + 1) v' a' := by
  obtain ⟨ts, a', hadd, hrep, hT, hclock, -⟩ := submit_spec h.rep h.wf hsub
  obtain ⟨s, free, r, -, hr, hts, ha'⟩ := PriorityBook.add_cases hadd
  set inc : Resting cap := ⟨s, v.nextEngineId, p, q, a.sequence, conn⟩
  have hrec := h.recorded_entered side p q hn hacc.fresh
  have hH := h.enter side cid hn hacc.positive inc rfl rfl rfl
  obtain ⟨hfills, hH'⟩ := hH.sweep (h.wf.positive side.opposite)
    (fun e he hcross => h.noSelf hacc.noSelfCross e he hcross) (h.ownIds hn side rfl)
  rw [hr, ← hts] at hfills hH'
  refine ⟨ts, a', hadd, hfills, hT, ⟨hrep, h.wf.add hadd,
    h.indexed.add h.wf (fun s e he => h.next_fresh hn he) hadd, ?_, ?_, ?_⟩⟩
  · rw [hclock, h.clock, UInt64.ofNat_add (n + 1)]
    rfl
  · rw [hT]
    exact hrec.afterTrades hfills
  · rw [hT]
    exact hH'.congr (fun _ => rfl) (mem_queue_of_add ha')

/-- A cancelled order. -/
theorem Synced.cancel (h : Synced n v a) {r : ClientRecord} {book : OrderBook cap}
    (hrec : v.tables.record conn cid = some r)
    (hbook : v.book.cancelOrder build r.engineId = .ok book) :
    Synced n (v.cancelled conn cid r book) (a.cancel r.engineId) := by
  obtain ⟨b', hb', hrep⟩ := cancelOrder_sim build h.rep h.wf r.engineId
  rw [hbook] at hb'
  cases hb'
  refine ⟨hrep, h.wf.cancel _, h.indexed.cancel h.wf _, h.clock, ?_, ⟨?_, ?_⟩⟩
  · exact h.recorded.cancel hrec (cancelled_live v conn cid r book)
      (cancelled_record v conn cid r book)
  · intro s e he
    rw [h.indexed.cancel_queue h.wf, List.mem_filter, decide_eq_true_eq] at he
    rw [cancelled_live, if_neg he.2]
    exact h.holds.queued s e he.1
  · intro id lo hlo
    rw [cancelled_live] at hlo
    split at hlo
    · cases hlo
    · next hid =>
      obtain ⟨s, e, he, rfl⟩ := h.holds.live id lo hlo
      refine ⟨s, e, ?_, rfl⟩
      rw [h.indexed.cancel_queue h.wf, List.mem_filter, decide_eq_true_eq]
      exact ⟨he, hid⟩

theorem mem_owned {id : UInt64} :
    id ∈ v.owned conn ↔ ∃ lo, v.tables.live id = some lo ∧ lo.owner = conn := by
  simp only [Venue.owned, List.mem_map, List.mem_filter, decide_eq_true_eq, Tables.live]
  constructor
  · rintro ⟨⟨_, lo⟩, ⟨hm, ho⟩, rfl⟩
    exact ⟨lo, AList.mem_lookup_iff.mpr hm, ho⟩
  · rintro ⟨lo, hlo, ho⟩
    exact ⟨⟨id, lo⟩, ⟨AList.mem_lookup_iff.mp hlo, ho⟩, rfl⟩

/-- Cancelling a list of orders, one by one. -/
theorem dropOwned_spec (build : Build) (ids : List UInt64) (v : Venue cap) {a : PriorityBook cap}
    (hrep : v.book.Rep a) (hwf : a.WF) : ∃ v', v.dropOwned build ids = .ok v' ∧
      v'.book.Rep (a.cancels ids) ∧
      (∀ id, v'.tables.live id = if id ∈ ids then none else v.tables.live id) ∧
      v'.tables.byConn = v.tables.byConn ∧ v'.tables.sent = v.tables.sent ∧
      (v'.tables.hasLastTrade = v.tables.hasLastTrade ∧
        v'.tables.lastTradeTicks = v.tables.lastTradeTicks) ∧
      v'.nextEngineId = v.nextEngineId ∧ v'.softCap = v.softCap := by
  induction ids generalizing v a with
  | nil => exact ⟨v, rfl, hrep, by simp, rfl, rfl, ⟨rfl, rfl⟩, rfl, rfl⟩
  | cons id ids ih =>
    obtain ⟨b', hb', hrep'⟩ := cancelOrder_sim build hrep hwf id
    obtain ⟨v', hv', hrep'', hl, hrest⟩ :=
      ih
        { v with
          book := b', tables := { v.tables with byEngineId := v.tables.byEngineId.erase id } }
        hrep' (hwf.cancel id)
    refine ⟨v', by rw [Venue.dropOwned, hb']; exact hv', hrep'', fun id' => ?_, hrest⟩
    have hone : Tables.live { v.tables with byEngineId := v.tables.byEngineId.erase id } id' =
        if id' = id then none else v.tables.live id' := lookup_erase_ite _ _ _
    rw [hl, hone]
    by_cases h1 : id' ∈ ids <;> by_cases h2 : id' = id <;> simp [h1, h2]

/-- `dropConnection`, the owned orders taken in a given order. -/
def Venue.dropIn (build : Build) (v : Venue cap) (conn : ConnId) (ids : List UInt64) :
    Except Fault (Venue cap) := do
  let v ← v.dropOwned build ids
  pure { v with tables := { v.tables with byConn := v.tables.byConn.erase conn } }

/-- The owned orders cancelled, whatever they are. -/
theorem dropIn_spec (build : Build) (conn : ConnId) (ids : List UInt64) (hrep : v.book.Rep a)
    (hwf : a.WF) : ∃ v', v.dropIn build conn ids = .ok v' ∧ v'.book.Rep (a.cancels ids) ∧
      (∀ id, v'.tables.live id = if id ∈ ids then none else v.tables.live id) ∧
      (∀ c cid, v'.tables.record c cid = if c = conn then none else v.tables.record c cid) ∧
      v'.tables.sent = v.tables.sent ∧
      (v'.tables.hasLastTrade = v.tables.hasLastTrade ∧
        v'.tables.lastTradeTicks = v.tables.lastTradeTicks) ∧
      v'.nextEngineId = v.nextEngineId ∧ v'.softCap = v.softCap := by
  obtain ⟨v', hv', hrep', hl, hbc, hrest⟩ := dropOwned_spec build ids v hrep hwf
  refine ⟨{ v' with tables := { v'.tables with byConn := v'.tables.byConn.erase conn } },
    by rw [Venue.dropIn, hv']; rfl, hrep', hl, fun c cid => ?_, hrest⟩
  show ((v'.tables.byConn.erase conn).lookup c).bind _ = _
  rw [lookup_erase_ite, hbc]
  split <;> rfl

/-- A dropped connection: its orders leave the book, its entries the tables. -/
theorem Synced.dropIn (h : Synced n v a) (build : Build) (conn : ConnId) {ids : List UInt64}
    (hids : ∀ id, id ∈ ids ↔ id ∈ v.owned conn) : ∃ v',
    v.dropIn build conn ids = .ok v' ∧ ∃ a', Synced n v' a' ∧
    (∀ s, a'.queue s = (a.queue s).filter fun e => e.participantId ≠ conn) ∧
    (∀ id, v'.tables.live id = (v.tables.live id).filter fun lo => lo.owner ≠ conn) ∧
    (∀ c cid, v'.tables.record c cid = if c = conn then none else v.tables.record c cid) ∧
    v'.tables.sent = v.tables.sent ∧ v'.nextEngineId = v.nextEngineId ∧
    v'.softCap = v.softCap := by
  obtain ⟨v', hv', hrep, hl, hrecord, hsent, -, hclock, hsoft⟩ :=
    dropIn_spec build conn ids h.rep h.wf
  obtain ⟨hix, hq⟩ := h.indexed.cancels h.wf ids
  have hlive : ∀ id, v'.tables.live id = (v.tables.live id).filter fun lo => lo.owner ≠ conn := by
    intro id
    rw [hl]
    cases hlo : v.tables.live id with
    | none => simp
    | some lo =>
      have : id ∈ ids ↔ lo.owner = conn := by
        rw [hids, mem_owned, hlo]
        simp
      by_cases ho : lo.owner = conn <;> simp [this, ho, Option.filter]
  -- an order's participant is the owner in the table
  have hqueue : ∀ s, (a.cancels ids).queue s =
      (a.queue s).filter fun e => e.participantId ≠ conn := by
    intro s
    rw [hq]
    refine List.filter_congr fun e he => decide_eq_decide.mpr (not_congr ?_)
    obtain ⟨lo, hlo, hm⟩ := h.holds.queued s e he
    rw [hids, mem_owned, hlo, ← hm.owner]
    simp
  refine ⟨v', hv', _, ⟨hrep, h.wf.cancels ids, hix, hclock.trans h.clock,
    h.recorded.drop hlive hrecord, ⟨?_, ?_⟩⟩, hqueue, hlive, hrecord, hsent, hclock, hsoft⟩
  · intro s e he
    rw [hqueue, List.mem_filter, decide_eq_true_eq] at he
    obtain ⟨lo, hlo, hm⟩ := h.holds.queued s e he.1
    refine ⟨lo, ?_, hm⟩
    rw [hlive, hlo, Option.filter_some, if_pos]
    rw [hm.owner]
    exact decide_eq_true he.2
  · intro id lo hlo
    rw [hlive, Option.filter_eq_some_iff, decide_eq_true_eq] at hlo
    obtain ⟨s, e, he, rfl⟩ := h.holds.live id lo hlo.1
    obtain ⟨lo', hlo', hm⟩ := h.holds.queued s e he
    rw [hlo.1, Option.some_inj] at hlo'
    refine ⟨s, e, ?_, rfl⟩
    rw [hqueue, List.mem_filter, decide_eq_true_eq, ← hm.owner, ← hlo']
    exact ⟨he, hlo.2⟩

theorem Synced.drop (h : Synced n v a) (build : Build) (conn : ConnId) : ∃ v',
    v.dropConnection build conn = .ok v' ∧ ∃ a', Synced n v' a' ∧
    (∀ s, a'.queue s = (a.queue s).filter fun e => e.participantId ≠ conn) ∧
    (∀ id, v'.tables.live id = (v.tables.live id).filter fun lo => lo.owner ≠ conn) ∧
    (∀ c cid, v'.tables.record c cid = if c = conn then none else v.tables.record c cid) ∧
    v'.tables.sent = v.tables.sent ∧ v'.nextEngineId = v.nextEngineId ∧
    v'.softCap = v.softCap := h.dropIn build conn fun _ => Iff.rfl

/-- A call about no order. -/
theorem Synced.quiet (h : Synced n v a) (book : v'.book = v.book)
    (clock : v'.nextEngineId = v.nextEngineId)
    (live : v'.tables.byEngineId = v.tables.byEngineId)
    (record : ∀ c cid, v'.tables.record c cid = v.tables.record c cid) : Synced n v' a := by
  have hlive : ∀ id, v'.tables.live id = v.tables.live id := fun id => by
    rw [Tables.live, live]; rfl
  exact ⟨book ▸ h.rep, h.wf, h.indexed, clock.trans h.clock, h.recorded.congr hlive record,
    h.holds.congr hlive fun _ _ => Iff.rfl⟩

end Steps

end MarketMakerOps.Exchange
