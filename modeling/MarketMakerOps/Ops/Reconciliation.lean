import MarketMakerOps.Ops.Quotes

/-!
The maker's position against the fills the venue has sent it.

A fill names no side, so the maker looks its order up in `order_side`, which holds the
pair of the last tick and the one before: a fill that is read later is dropped.

* `sideIn`: the side of an order among some pairs; `inventoryOf`, `cashOf`: what fills of
  these orders come to;
* `receive_reply`: the payload of a fill books it, other payloads change nothing;
* `Numbered`: the pairs bear fresh ids, bids odd ones and asks even ones;
* `Booked`: the position is what the fills read in time come to;
* `position_reconciles`: with no fill under way, all that were sent are read, and those
  read in time are booked;
* `late_fill_dropped`: a fill two ticks late is not.
-/

namespace MarketMakerOps.Ops

open Decimal Engine Exchange Fallible

variable {cap : Nat} {build : Build} {c : Client}

/-! ## What fills come to -/

/-- The side of an order, if one of the pairs holds it. -/
def sideIn (pairs : List Pair) (cid : Bytes) : Option Side :=
  if cid ∈ pairs.map (fun p => utf8 p.bidId) then some .buy
  else if cid ∈ pairs.map (fun p => utf8 p.askId) then some .sell
  else none

/-- A quantity, negative on the side of sales. -/
def signed : Side → ℚ → ℚ
  | .buy, qty => qty
  | .sell, qty => -qty

/-- What a fill adds to the inventory. -/
def signedQty (pairs : List Pair) : Outbound → ℚ
  | .fill _ cid qty _ _ =>
    match sideIn pairs cid with
    | some side => signed side qty.toNat
    | none => 0
  | _ => 0

def fillPrice : Outbound → ℚ
  | .fill _ _ _ ticks _ => price ticks
  | _ => 0

def inventoryOf (pairs : List Pair) (fills : List Outbound) : ℚ := (fills.map (signedQty pairs)).sum

def cashOf (pairs : List Pair) (fills : List Outbound) : ℚ :=
  -(fills.map fun m => signedQty pairs m * fillPrice m).sum

/-- The last two of the first `k` pairs. -/
def recent (pairs : List Pair) (k : Nat) : List Pair := (pairs.take k).drop (k - 2)

/-- A fill read when `x.1` pairs were made is of the last of them or of the one before. -/
def inGrace (pairs : List Pair) (x : Nat × Outbound) : Bool :=
  x.2.isFill && (sideIn (recent pairs x.1) x.2.clientOrderId).isSome

/-- A quantity with a sign, added at a price. -/
def PositionState.moved (p : PositionState) (qty price : ℚ) : PositionState :=
  ⟨p.cash - qty * price, p.inventory + qty⟩

theorem PositionState.moved_zero (p : PositionState) (price : ℚ) : p.moved 0 price = p := by
  rw [moved, zero_mul, sub_zero, add_zero]

theorem PositionState.filled_eq_moved (p : PositionState) (side : Side) (qty price : ℚ) :
    p.filled side qty price = p.moved (signed side qty) price := by
  cases side with
  | buy => rfl
  | sell =>
    unfold filled moved signed
    rw [neg_mul, sub_neg_eq_add, ← sub_eq_add_neg]

theorem signedQty_fill {pairs : List Pair} {e cid : Bytes} {qty ticks left : UInt32} {side : Side}
    (h : sideIn pairs cid = some side) :
    signedQty pairs (.fill e cid qty ticks left) = signed side qty.toNat := by
  show (match sideIn pairs cid with
    | some side => signed side qty.toNat
    | none => 0) = _
  rw [h]

/-! ## Reading messages -/

/-- `_on_fill` on the fields of a message. -/
def Maker.booked (M : Maker) : Outbound → Maker
  | .fill _ cid qty ticks _ =>
    match M.orderSide.lookup cid with
    | none => M
    | some side => { M with position := M.position.filled side qty.toNat (price ticks) }
  | _ => M

section Booking

variable {M : Maker} {e cid : Bytes} {qty ticks left : UInt32} {side : Side}

theorem Maker.booked_unknown (h : M.orderSide.lookup cid = none) :
    M.booked (.fill e cid qty ticks left) = M := by
  show (match M.orderSide.lookup cid with
    | none => M
    | some side => { M with position := M.position.filled side qty.toNat (price ticks) }) = M
  rw [h]

theorem Maker.booked_known (h : M.orderSide.lookup cid = some side) :
    M.booked (.fill e cid qty ticks left) =
      { M with position := M.position.filled side qty.toNat (price ticks) } := by
  show (match M.orderSide.lookup cid with
    | none => M
    | some side => { M with position := M.position.filled side qty.toNat (price ticks) }) = _
  rw [h]

end Booking

theorem lookup_of_mem {l : List Json.Member} (hnd : (l.map Prod.fst).Nodup) {k : Bytes}
    {v : Json.Value} (h : (k, v) ∈ l) : l.lookup k = some v := by
  induction l with
  | nil => cases h
  | cons m l ih =>
    obtain ⟨hm, hnd'⟩ := List.nodup_cons.mp hnd
    obtain ⟨k', v'⟩ := m
    rw [List.lookup_cons]
    rcases List.mem_cons.mp h with heq | hmem
    · cases heq
      rw [beq_self_eq_true]
    · have hne : (k == k') = false := by
        rw [beq_eq_false_iff_ne]
        rintro rfl
        exact hm (List.mem_map.mpr ⟨(k, v), hmem, rfl⟩)
      rw [hne]
      exact ih hnd' hmem

/-- A member of a message that is read. -/
theorem field_of_mem {l : List Json.Member} (hnd : (l.map Prod.fst).Nodup) (key : String)
    {v : Json.Value} (h : (ascii key, v) ∈ l) : Maker.field l key = some v := by
  refine lookup_of_mem ?_ (List.mem_reverse.mpr h)
  rw [List.map_reverse]
  exact List.nodup_reverse.mpr hnd

/-- A message of another type changes nothing. -/
theorem receive_other {M : Maker} {payload typ : Bytes} {ms : List Json.Member}
    (hreads : Reads payload ((ascii "type", .str typ) :: ms)) (htyp : typ ≠ ascii "FILL") :
    M.receive payload = if Utf8.isUtf8 payload then some M else none := by
  obtain ⟨hparse, hnd⟩ := hreads
  have hfield := field_of_mem hnd "type" List.mem_cons_self
  rw [Maker.receive, jsonLoads, hparse]
  split
  · simp only [Option.bind_eq_bind, Option.bind_some, hfield]
    rw [if_neg]
    intro h
    cases h
    exact htyp rfl
  · rfl

/-- A reply, read from its payload. -/
theorem receive_reply (M : Maker) (m : Outbound) (t : UtcTime) :
    M.receive (Parcel.reply m t).payload =
      if Utf8.isUtf8 (Parcel.reply m t).payload then some (M.booked m) else none := by
  cases m with
  | ack cid e => exact receive_other (reads_ack (ascii "ACK") cid e _ rfl) (by decide +kernel)
  | reject cid reason =>
    exact receive_other (reads_reject (ascii "REJECT") cid (ascii reason.text) _ rfl)
      (by decide +kernel)
  | cancelAck cid e =>
    exact receive_other (reads_ack (ascii "CANCEL_ACK") cid e _ rfl) (by decide +kernel)
  | cancelReject cid reason =>
    exact receive_other (reads_reject (ascii "CANCEL_REJECT") cid (ascii reason.text) _ rfl)
      (by decide +kernel)
  | fill e cid qty ticks left =>
    obtain ⟨hparse, hnd⟩ := reads_encodeFill e cid qty ticks left (isoTimestamp t)
    have htype := field_of_mem hnd "type" (v := .str (ascii "FILL")) (by simp)
    have hcid := field_of_mem hnd "client_order_id" (v := .str cid) (by simp)
    have hqty := field_of_mem hnd "fill_qty" (v := .num qty.toNat) (by simp)
    have hprice := field_of_mem hnd "fill_price" (v := .num ((ticks.toNat : ℚ) / 100)) (by simp)
    have hpayload : Json.parse (Parcel.reply (.fill e cid qty ticks left) t).payload = some _ :=
      hparse
    rw [Maker.receive, jsonLoads, hpayload]
    split
    · simp only [Option.bind_eq_bind, Option.bind_some, htype, if_true, Maker.onFill, hcid, hqty,
        hprice]
      rw [Maker.booked]
      cases M.orderSide.lookup cid <;> rfl
    · rfl

/-- Broadcasts change nothing. -/
theorem receive_broadcast (M : Maker) {p : Parcel} (h : p.reply? = none) :
    M.receive p.payload = if Utf8.isUtf8 p.payload then some M else none := by
  cases p with
  | reply m t => cases h
  | heartbeat seq t => exact receive_other (reads_encodeHeartbeat seq _) (by decide +kernel)
  | marketData top t =>
    exact receive_other (reads_encodeMarketData kSymbol _ _ _ _ _ _ _) (by decide +kernel)

/-! ## Sides -/

/-- The pairs bear the ids drawn for them, two a tick. -/
def Numbered (c : Client) (pairs : List Pair) : Prop :=
  ∀ i p, pairs[i]? = some p → p.bidId = c.id (2 * i + 1) ∧ p.askId = c.id (2 * i + 2)

section Sides

variable {pairs ps : List Pair} {p q : Pair} {cid : Bytes} {side : Side}

theorem Numbered.snoc (h : Numbered c pairs) (quote : Quote) : Numbered c
    (pairs ++ [⟨c.id (2 * pairs.length + 1), c.id (2 * pairs.length + 2), quote⟩]) := by
  intro i p hp
  rw [List.getElem?_append] at hp
  split at hp
  · exact h i p hp
  · next hi =>
    obtain ⟨hlt, heq⟩ := List.getElem?_eq_some_iff.mp hp
    rw [List.length_singleton] at hlt
    have hlen : i = pairs.length := by omega
    rw [List.getElem_singleton] at heq
    rw [← heq, hlen]
    exact ⟨rfl, rfl⟩

/-- Bids have odd numbers, asks even ones. -/
theorem Numbered.ne (h : Numbered c pairs) (hp : p ∈ pairs) (hq : q ∈ pairs) :
    utf8 p.bidId ≠ utf8 q.askId := by
  obtain ⟨i, hi⟩ := List.mem_iff_getElem?.mp hp
  obtain ⟨j, hj⟩ := List.mem_iff_getElem?.mp hq
  rw [(h i p hi).1, (h j q hj).2]
  intro heq
  have := c.id_inj heq
  omega

theorem sideIn_bid (hp : p ∈ ps) : sideIn ps (utf8 p.bidId) = some .buy :=
  if_pos (List.mem_map.mpr ⟨p, hp, rfl⟩)

theorem Numbered.sideIn_ask (h : Numbered c pairs) (hsub : ∀ q ∈ ps, q ∈ pairs) (hp : p ∈ ps) :
    sideIn ps (utf8 p.askId) = some .sell := by
  unfold sideIn
  rw [if_neg, if_pos (List.mem_map.mpr ⟨p, hp, rfl⟩)]
  intro hbid
  obtain ⟨q, hq, heq⟩ := List.mem_map.mp hbid
  exact h.ne (hsub q hq) (hsub p hp) heq

theorem sideIn_eq_some (h : sideIn ps cid = some side) : ∃ p ∈ ps,
    (cid = utf8 p.bidId ∧ side = .buy) ∨ (cid = utf8 p.askId ∧ side = .sell) := by
  unfold sideIn at h
  split at h
  · next hmem =>
    obtain ⟨p, hp, heq⟩ := List.mem_map.mp hmem
    cases h
    exact ⟨p, hp, Or.inl ⟨heq.symm, rfl⟩⟩
  · split at h
    · next hmem =>
      obtain ⟨p, hp, heq⟩ := List.mem_map.mp hmem
      cases h
      exact ⟨p, hp, Or.inr ⟨heq.symm, rfl⟩⟩
    · cases h

/-- Among more pairs an order keeps its side. -/
theorem Numbered.sideIn_mono (h : Numbered c pairs) (hsub : ∀ q ∈ ps, q ∈ pairs)
    (hside : sideIn ps cid = some side) : sideIn pairs cid = some side := by
  obtain ⟨p, hp, ⟨rfl, rfl⟩ | ⟨rfl, rfl⟩⟩ := sideIn_eq_some hside
  · exact sideIn_bid (hsub p hp)
  · exact h.sideIn_ask (fun q hq => hq) (hsub p hp)

/-- The orders with the numbers drawn are those of the pairs. -/
theorem Numbered.exists_pair (h : Numbered c pairs) {n : Nat} (hpos : 1 ≤ n)
    (hle : n ≤ 2 * pairs.length) : ∃ p ∈ pairs, c.id n = p.bidId ∨ c.id n = p.askId := by
  have hlt : (n - 1) / 2 < pairs.length := by omega
  have hget := List.getElem?_eq_getElem hlt
  refine ⟨pairs[(n - 1) / 2], List.getElem_mem hlt, ?_⟩
  obtain ⟨hbid, hask⟩ := h _ _ hget
  rcases Nat.even_or_odd' n with ⟨k, rfl | rfl⟩
  · right
    rw [hask]
    congr 1
    omega
  · left
    rw [hbid]
    congr 1
    omega

/-- A pair entered in the dictionary. -/
theorem lookup_insert_pair {d : AList fun _ : Bytes => Side}
    (hd : ∀ cid, d.lookup cid = sideIn ps cid)
    (hask : ∀ q ∈ ps ++ [p], utf8 q.bidId ≠ utf8 p.askId) (cid : Bytes) :
    ((d.insert (utf8 p.bidId) .buy).insert (utf8 p.askId) .sell).lookup cid =
      sideIn (ps ++ [p]) cid := by
  rw [lookup_insert_ite, lookup_insert_ite, hd]
  unfold sideIn
  by_cases ha : cid = utf8 p.askId
  · have hbids : cid ∉ (ps ++ [p]).map fun q => utf8 q.bidId := by
      intro hmem
      obtain ⟨q, hq, heq⟩ := List.mem_map.mp hmem
      exact hask q hq (heq.trans ha)
    rw [if_pos ha, if_neg hbids, if_pos]
    rw [ha]
    exact List.mem_map.mpr ⟨p, List.mem_append_right _ (List.mem_singleton_self p), rfl⟩
  · rw [if_neg ha]
    by_cases hb : cid = utf8 p.bidId
    · simp [hb]
    · simp [hb, ha]

theorem mem_of_mem_recent {k : Nat} (h : p ∈ recent pairs k) : p ∈ pairs :=
  List.mem_of_mem_take (List.mem_of_mem_drop h)

/-- Pairs made later do not matter. -/
theorem recent_snoc {k : Nat} (hk : k ≤ pairs.length) :
    recent (pairs ++ [p]) k = recent pairs k := by
  rw [recent, List.take_append_of_le_length hk]
  rfl

theorem recent_length : recent pairs pairs.length = pairs.drop (pairs.length - 2) := by
  rw [recent, List.take_length]

theorem recent_length_snoc : recent (pairs ++ [p]) (pairs ++ [p]).length =
    pairs.drop (pairs.length - 1) ++ [p] := by
  have hlen : (pairs ++ [p]).length - 2 = pairs.length - 1 := by
    rw [List.length_append, List.length_singleton]
    omega
  rw [recent_length, hlen]
  exact List.drop_append_of_le_length (Nat.sub_le _ _)

end Sides

/-! ## What is booked -/

/-- The fills read in time. -/
def timely (pairs : List Pair) (read : List (Nat × Outbound)) : List Outbound :=
  (read.filter (inGrace pairs)).map Prod.snd

/-- The dictionary knows the last two pairs, and the position is what the fills read in time
come to. -/
structure Booked (c : Client) (W : World cap) : Prop where
  numbered : Numbered c W.maker.pairs
  drawn : W.maker.seq = 2 * W.maker.pairs.length
  sides : ∀ cid, W.maker.orderSide.lookup cid =
    sideIn (recent W.maker.pairs W.maker.pairs.length) cid
  stamps : ∀ x ∈ W.read, x.1 ≤ W.maker.pairs.length
  inventory : W.maker.position.inventory =
    inventoryOf W.maker.pairs (timely W.maker.pairs W.read)
  cash : W.maker.position.cash = cashOf W.maker.pairs (timely W.maker.pairs W.read)
  channel : repliesTo c.conn W.session =
    W.read.map Prod.snd ++ W.toMaker.filterMap Parcel.reply?

section Grace

variable {pairs : List Pair} {p : Pair} {read : List (Nat × Outbound)} {x : Nat × Outbound}

/-- A fill in time has a side. -/
theorem side_of_inGrace (h : Numbered c pairs) (hx : inGrace pairs x = true) :
    ∃ side, sideIn (recent pairs x.1) x.2.clientOrderId = some side ∧
      sideIn pairs x.2.clientOrderId = some side := by
  obtain ⟨side, hside⟩ := Option.isSome_iff_exists.mp (Bool.and_eq_true_iff.mp hx).2
  exact ⟨side, hside, h.sideIn_mono (fun q hq => mem_of_mem_recent hq) hside⟩

/-- Pairs made later change neither what was in time nor what it comes to. -/
theorem timely_snoc (hread : ∀ x ∈ read, x.1 ≤ pairs.length) :
    timely (pairs ++ [p]) read = timely pairs read := by
  unfold timely
  congr 1
  refine List.filter_congr fun x hx => ?_
  unfold inGrace
  rw [recent_snoc (hread x hx)]

theorem signedQty_snoc (h : Numbered c pairs) (hp : Numbered c (pairs ++ [p])) :
    ∀ m ∈ timely pairs read, signedQty (pairs ++ [p]) m = signedQty pairs m := by
  intro m hm
  obtain ⟨x, hx, rfl⟩ := List.mem_map.mp hm
  obtain ⟨side, -, hside⟩ := side_of_inGrace h (List.mem_filter.mp hx).2
  have hside' := hp.sideIn_mono (fun q hq => List.mem_append_left _ hq) hside
  unfold signedQty
  split
  · next e cid qty ticks left heq =>
    rw [heq] at hside hside'
    rw [show sideIn pairs cid = some side from hside,
      show sideIn (pairs ++ [p]) cid = some side from hside']
  · rfl

theorem inventoryOf_snoc (h : Numbered c pairs) (hp : Numbered c (pairs ++ [p])) :
    inventoryOf (pairs ++ [p]) (timely pairs read) = inventoryOf pairs (timely pairs read) := by
  unfold inventoryOf
  rw [List.map_congr_left (signedQty_snoc h hp)]

theorem cashOf_snoc (h : Numbered c pairs) (hp : Numbered c (pairs ++ [p])) :
    cashOf (pairs ++ [p]) (timely pairs read) = cashOf pairs (timely pairs read) := by
  unfold cashOf
  rw [List.map_congr_left fun m hm => by rw [signedQty_snoc h hp m hm]]

/-- What one more fill read comes to. -/
def share (pairs : List Pair) (x : Nat × Outbound) : ℚ :=
  if inGrace pairs x then signedQty pairs x.2 else 0

theorem inventoryOf_timely_snoc : inventoryOf pairs (timely pairs (read ++ [x])) =
    inventoryOf pairs (timely pairs read) + share pairs x := by
  unfold inventoryOf timely share
  rw [List.filter_append, List.map_append, List.map_append, List.sum_append, List.filter_singleton]
  cases inGrace pairs x <;> simp

theorem cashOf_timely_snoc : cashOf pairs (timely pairs (read ++ [x])) =
    cashOf pairs (timely pairs read) - share pairs x * fillPrice x.2 := by
  unfold cashOf timely share
  rw [List.filter_append, List.map_append, List.map_append, List.sum_append, List.filter_singleton]
  cases inGrace pairs x
  · simp
  · simp
    ring

end Grace

section Runs

variable {softCap : Nat} {W W' : World cap}

/-- When the cancels are sent, the entries kept are those of the last pair. -/
theorem Booked.kept (h : Booked c W) {quote : Quote} {ψ : Phase}
    (hat : AtPhase c (.cancelling quote []) W.maker.seq W.maker.resting ψ) (cid : Bytes) :
    W.maker.kept.lookup cid = sideIn (W.maker.pairs.drop (W.maker.pairs.length - 1)) cid := by
  have hdrawn := h.drawn
  generalize hseq : W.maker.seq = seq at hat hdrawn
  generalize hrest : W.maker.resting = resting at hat
  cases hat with
  | quoted ordered =>
    have hnil : W.maker.pairs = [] := List.length_eq_zero_iff.mp (by omega)
    rw [Maker.kept, hrest, hnil]
    rfl
  | cleared n ordered =>
    have hlt : W.maker.pairs.length - 1 < W.maker.pairs.length := by omega
    have hdrop : W.maker.pairs.drop (W.maker.pairs.length - 1) =
        [W.maker.pairs[W.maker.pairs.length - 1]] := by
      rw [List.drop_eq_getElem_cons hlt, List.drop_eq_nil_of_le (by omega)]
    obtain ⟨hbid, hask⟩ := h.numbered _ _ (List.getElem?_eq_getElem hlt)
    have hn : 2 * (W.maker.pairs.length - 1) = n := by omega
    rw [hn] at hbid hask
    rw [hdrop]
    generalize W.maker.pairs[W.maker.pairs.length - 1] = last at hdrop hbid hask ⊢
    have hmem : last ∈ recent W.maker.pairs W.maker.pairs.length := by
      rw [recent_length]
      refine List.drop_subset_drop_left _ (show W.maker.pairs.length - 2 ≤
        W.maker.pairs.length - 1 by omega) ?_
      rw [hdrop]
      exact List.mem_singleton_self _
    have hbuy : W.maker.orderSide.lookup (utf8 (c.id (n + 1))) = some .buy := by
      rw [h.sides, ← hbid]
      exact sideIn_bid hmem
    have hsell : W.maker.orderSide.lookup (utf8 (c.id (n + 2))) = some .sell := by
      rw [h.sides, ← hask]
      exact h.numbered.sideIn_ask (fun q hq => mem_of_mem_recent hq) hmem
    have hkept : W.maker.kept = (AList.insert (utf8 last.bidId) .buy ∅).insert
        (utf8 last.askId) .sell := by
      rw [Maker.kept, hrest, hbid, hask]
      simp only [List.foldl_cons, List.foldl_nil, hbuy, hsell]
    have hlast := mem_of_mem_recent hmem
    have hnone : ∀ cid, (∅ : AList fun _ : Bytes => Side).lookup cid = sideIn [] cid := fun _ => rfl
    rw [hkept]
    refine lookup_insert_pair hnone (fun q hq => ?_) cid
    rw [List.nil_append, List.mem_singleton] at hq
    rw [hq]
    exact h.numbered.ne hlast hlast

/-- A pair is made. -/
theorem Booked.registered (h : Booked c W) {quote : Quote} {ψ : Phase}
    (hat : AtPhase c (.cancelling quote []) W.maker.seq W.maker.resting ψ)
    (r : Request) (t : UtcTime) : Booked c (W.sent (W.maker.registered c quote) r t) := by
  have hnumbered : Numbered c (W.maker.pairs ++ [W.maker.nextPair c quote]) := by
    rw [Maker.nextPair, h.drawn]
    exact h.numbered.snoc quote
  refine ⟨hnumbered, ?_, ?_, fun x hx => ?_, ?_, ?_, h.channel⟩
  · show W.maker.seq + 2 = 2 * (W.maker.pairs ++ [W.maker.nextPair c quote]).length
    rw [h.drawn, List.length_append, List.length_singleton]
    omega
  · intro cid
    show ((W.maker.kept.insert _ _).insert _ _).lookup cid =
      sideIn (recent (W.maker.pairs ++ [W.maker.nextPair c quote]) _) cid
    rw [lookup_insert_pair (h.kept hat) (p := W.maker.nextPair c quote), ← recent_length_snoc]
    · rfl
    · intro q hq
      refine hnumbered.ne ?_ (List.mem_append_right _ (List.mem_singleton_self _))
      rcases List.mem_append.mp hq with hq | hq
      · exact List.mem_append_left _ (List.mem_of_mem_drop hq)
      · exact List.mem_append_right _ hq
  · show x.1 ≤ (W.maker.pairs ++ [W.maker.nextPair c quote]).length
    rw [List.length_append]
    exact (h.stamps x hx).trans (Nat.le_add_right _ _)
  · show W.maker.position.inventory = inventoryOf (W.maker.pairs ++ [W.maker.nextPair c quote])
      (timely (W.maker.pairs ++ [W.maker.nextPair c quote]) W.read)
    rw [timely_snoc h.stamps, inventoryOf_snoc h.numbered hnumbered]
    exact h.inventory
  · show W.maker.position.cash = cashOf (W.maker.pairs ++ [W.maker.nextPair c quote])
      (timely (W.maker.pairs ++ [W.maker.nextPair c quote]) W.read)
    rw [timely_snoc h.stamps, cashOf_snoc h.numbered hnumbered]
    exact h.cash

/-- The venue makes a call, and its messages to the maker set out. -/
theorem Booked.called (h : Booked c W) {s : Session cap} {ps : List (Outbound × UtcTime)}
    {toVenue : List (Request × UtcTime)}
    (hreplies : repliesTo c.conn s = repliesTo c.conn W.session ++ ps.map Prod.fst) :
    Booked c ({ W with toVenue := toVenue }.called s ps) := by
  refine ⟨h.numbered, h.drawn, h.sides, h.stamps, h.inventory, h.cash, ?_⟩
  have hps : (ps.map fun p => Parcel.reply p.1 p.2).filterMap Parcel.reply? = ps.map Prod.fst := by
    rw [List.filterMap_map, ← List.filterMap_eq_map]
    rfl
  show repliesTo c.conn s = W.read.map Prod.snd ++ (W.toMaker ++ _).filterMap Parcel.reply?
  rw [hreplies, h.channel, List.filterMap_append, hps, List.append_assoc]

/-- A reply read moves the position by its share. -/
theorem Booked.booked_eq (h : Booked c W) (m : Outbound) : W.maker.booked m = { W.maker with
    position := W.maker.position.moved (share W.maker.pairs (W.maker.pairs.length, m))
      (fillPrice m) } := by
  have hsame : share W.maker.pairs (W.maker.pairs.length, m) = 0 → W.maker = { W.maker with
      position := W.maker.position.moved (share W.maker.pairs (W.maker.pairs.length, m))
        (fillPrice m) } := by
    intro hzero
    rw [hzero, PositionState.moved_zero]
  cases m with
  | ack cid e => exact hsame rfl
  | reject cid reason => exact hsame rfl
  | cancelAck cid e => exact hsame rfl
  | cancelReject cid reason => exact hsame rfl
  | fill e cid qty ticks left =>
    have hside := h.sides cid
    cases hrecent : sideIn (recent W.maker.pairs W.maker.pairs.length) cid with
    | none =>
      rw [hrecent] at hside
      have hlate : inGrace W.maker.pairs (W.maker.pairs.length, .fill e cid qty ticks left) =
          false := congrArg Option.isSome hrecent
      rw [Maker.booked_unknown hside]
      refine hsame ?_
      unfold share
      rw [hlate]
      rfl
    | some side =>
      rw [hrecent] at hside
      have htime : inGrace W.maker.pairs (W.maker.pairs.length, .fill e cid qty ticks left) =
          true := congrArg Option.isSome hrecent
      have hknown := h.numbered.sideIn_mono (fun q hq => mem_of_mem_recent hq) hrecent
      rw [Maker.booked_known hside, PositionState.filled_eq_moved, share, if_pos htime,
        signedQty_fill hknown]
      rfl

/-- The maker reads a reply. -/
theorem Booked.delivered (h : Booked c W) {m : Outbound} {t : UtcTime} {rest : List Parcel}
    (front : W.toMaker = .reply m t :: rest) : Booked c { W with
      maker := W.maker.booked m
      toMaker := rest
      read := W.read ++ [(W.maker.pairs.length, m)] } := by
  rw [h.booked_eq m]
  refine ⟨h.numbered, h.drawn, h.sides, ?_, ?_, ?_, ?_⟩
  · refine List.forall_mem_append.mpr ⟨h.stamps, fun x hx => ?_⟩
    rw [List.mem_singleton.mp hx]
  · show W.maker.position.inventory + _ = inventoryOf W.maker.pairs (timely W.maker.pairs _)
    rw [inventoryOf_timely_snoc, h.inventory]
  · show W.maker.position.cash - _ = cashOf W.maker.pairs (timely W.maker.pairs _)
    rw [cashOf_timely_snoc, h.cash]
  · rw [h.channel, front, List.map_append, List.append_assoc]
    rfl

theorem Booked.step (h : Booked c W) (hsafe : Safe build softCap c W)
    (hstep : Step build c W W') : Booked c W' := by
  cases hstep with
  | quote fairValue pc =>
    exact ⟨h.numbered, h.drawn, h.sides, h.stamps, h.inventory, h.cash, h.channel⟩
  | cancel t pc => exact ⟨h.numbered, h.drawn, h.sides, h.stamps, h.inventory, h.cash, h.channel⟩
  | @bid quote t pc =>
    obtain ⟨-, ψ, -, -, -, hat⟩ := hsafe.path
    rw [pc] at hat
    exact h.registered hat _ t
  | ask t pc => exact ⟨h.numbered, h.drawn, h.sides, h.stamps, h.inventory, h.cash, h.channel⟩
  | take ps front call replies => exact h.called replies
  | others ps byOthers call replies => exact h.called replies
  | broadcast p noReply =>
    refine ⟨h.numbered, h.drawn, h.sides, h.stamps, h.inventory, h.cash, ?_⟩
    show _ = W.read.map Prod.snd ++ (W.toMaker ++ [p]).filterMap Parcel.reply?
    rw [List.filterMap_append, List.filterMap_cons_none noReply, h.channel]
    simp
  | @deliver p rest M front handled =>
    cases hp : p.reply? with
    | none =>
      rw [receive_broadcast W.maker hp] at handled
      obtain ⟨-, handled⟩ := Option.ite_none_right_eq_some.mp handled
      cases handled
      refine ⟨h.numbered, h.drawn, h.sides, ?_, ?_, ?_, ?_⟩
      · simpa [hp] using h.stamps
      · simpa [hp] using h.inventory
      · simpa [hp] using h.cash
      · have hchannel := h.channel
        rw [front, List.filterMap_cons_none hp] at hchannel
        simpa [hp] using hchannel
    | some m =>
      cases p with
      | reply m' t =>
        cases hp
        rw [receive_reply] at handled
        obtain ⟨-, handled⟩ := Option.ite_none_right_eq_some.mp handled
        cases handled
        exact h.delivered front
      | heartbeat seq t => cases hp
      | marketData top t => cases hp

theorem Booked.start {v : Venue cap} : Booked c (World.start v) := by
  refine ⟨fun i p hp => ?_, rfl, fun cid => rfl, fun x hx => absurd hx List.not_mem_nil, rfl, ?_,
    rfl⟩
  · cases hp
  · show (0 : ℚ) = -(List.sum [])
    rw [List.sum_nil, neg_zero]

theorem Reachable.booked (h : Reachable build softCap c W) : Booked c W := by
  obtain ⟨v, hv, hsteps⟩ := h
  induction hsteps with
  | refl => exact Booked.start
  | @tail W W' hsteps hstep ih => exact ih.step (Reachable.safe ⟨v, hv, hsteps⟩) hstep

end Runs

/-! ## Reconciliation -/

theorem sum_fills {f : Outbound → ℚ} (hf : ∀ m, m.isFill = false → f m = 0) (l : List Outbound) :
    ((l.filter Outbound.isFill).map f).sum = (l.map f).sum := by
  induction l with
  | nil => rfl
  | cons m l ih =>
    cases hm : m.isFill with
    | false =>
      rw [List.filter_cons_of_neg (by simp [hm]), ih, List.map_cons, List.sum_cons, hf m hm,
        zero_add]
    | true =>
      rw [List.filter_cons_of_pos hm, List.map_cons, List.sum_cons, List.map_cons, List.sum_cons,
        ih]

theorem signedQty_of_not_fill (pairs : List Pair) (m : Outbound) (h : m.isFill = false) :
    signedQty pairs m = 0 := by
  cases m <;> first | rfl | cases h

theorem inventoryOf_fills (pairs : List Pair) (l : List Outbound) :
    inventoryOf pairs (l.filter Outbound.isFill) = inventoryOf pairs l :=
  sum_fills (signedQty_of_not_fill pairs) l

theorem cashOf_fills (pairs : List Pair) (l : List Outbound) :
    cashOf pairs (l.filter Outbound.isFill) = cashOf pairs l := by
  unfold cashOf
  rw [sum_fills fun m hm => by rw [signedQty_of_not_fill pairs m hm, zero_mul]]

/-- However the maker, the venue and the others interleave: with no fill under way, all fills sent
are read, each of an order of a pair; the position is what those read in time come to, so that it
is what all come to if none was read later than the tick after its order's. -/
theorem position_reconciles {softCap : Nat} {W : World cap} (h : Reachable build softCap c W)
    (hdelivered : ∀ p ∈ W.toMaker, ∀ m, p.reply? = some m → m.isFill = false) :
    (repliesTo c.conn W.session).filter Outbound.isFill =
      (W.read.map Prod.snd).filter Outbound.isFill ∧
    (∀ m ∈ repliesTo c.conn W.session, m.isFill = true → ∃ p ∈ W.maker.pairs,
      m.clientOrderId = utf8 p.bidId ∨ m.clientOrderId = utf8 p.askId) ∧
    W.maker.position.inventory = inventoryOf W.maker.pairs (timely W.maker.pairs W.read) ∧
    W.maker.position.cash = cashOf W.maker.pairs (timely W.maker.pairs W.read) ∧
    ((∀ x ∈ W.read, x.2.isFill = true → inGrace W.maker.pairs x = true) →
      W.maker.position.inventory = inventoryOf W.maker.pairs (repliesTo c.conn W.session) ∧
        W.maker.position.cash = cashOf W.maker.pairs (repliesTo c.conn W.session)) := by
  have hbooked := h.booked
  have hread : (repliesTo c.conn W.session).filter Outbound.isFill =
      (W.read.map Prod.snd).filter Outbound.isFill := by
    have hnone : (W.toMaker.filterMap Parcel.reply?).filter Outbound.isFill = [] := by
      rw [List.filter_eq_nil_iff]
      intro m hm
      obtain ⟨p, hp, hreply⟩ := List.mem_filterMap.mp hm
      rw [hdelivered p hp m hreply]
      exact Bool.false_ne_true
    rw [hbooked.channel, List.filter_append, hnone, List.append_nil]
  refine ⟨hread, ?_, hbooked.inventory, hbooked.cash, fun hgrace => ?_⟩
  · intro m hm hfill
    obtain ⟨x, hx, rfl⟩ := List.mem_map.mp hm
    obtain ⟨hmem, hconn⟩ := List.mem_filter.mp hx
    obtain ⟨n, hle, hpos, hcid⟩ := h.safe.fills x hmem (of_decide_eq_true hconn) hfill
    rw [hbooked.drawn] at hle
    obtain ⟨p, hp, hid | hid⟩ := hbooked.numbered.exists_pair hpos hle
    · exact ⟨p, hp, Or.inl (hid ▸ hcid)⟩
    · exact ⟨p, hp, Or.inr (hid ▸ hcid)⟩
  · -- read in time is then the same as being a fill
    have htimely : timely W.maker.pairs W.read =
        (repliesTo c.conn W.session).filter Outbound.isFill := by
      rw [hread, timely, List.filter_map]
      congr 1
      refine List.filter_congr fun x hx => ?_
      rw [Bool.eq_iff_iff]
      exact ⟨fun hin => (Bool.and_eq_true_iff.mp hin).1, hgrace x hx⟩
    rw [hbooked.inventory, hbooked.cash, htimely]
    exact ⟨inventoryOf_fills _ _, cashOf_fills _ _⟩

/-! ## A bid that is taken -/

def bidFill : Outbound := .fill (exchangeId 1) (utf8 (desk.id 1)) 10 9998 0

/-- The first bid is sold to: its ACK and its FILL are under way. -/
theorem first_sale (build : Build) : ∃ s : Session 4, Reachable build 3 desk
      ⟨bidder, [], s, [.reply bidAck epoch, .reply bidFill epoch], []⟩ ∧
    repliesTo desk.conn s = [bidAck, bidFill] ∧ s.accepted < 2 ^ 64 := by
  obtain ⟨s, hreach, hmsgs, hstands⟩ := first_bid build
  have hacc := hstands.accepts 2 (isNewOrder_line idA idA .sell 9998 10 9998 10 rfl rfl)
    (by decide) rfl (show 1 < 3 by decide) rfl
  let t : Trade := ⟨1, 2, 9998, 10⟩
  obtain ⟨a, hadd⟩ : ∃ a, bidderBook.add build .sell 9998 10 2 2 = .ok ([t], a) := ⟨_, rfl⟩
  -- the buyer's leg is the maker's
  have hbuy : (Venue.entered ⟨3, 2, bidderTables, s.venue.book⟩ 2 idA.bytes .sell 9998 10).live 1 =
      some ⟨1, utf8 (desk.id 1), exchangeId 1, .buy, 9998, 10⟩ := by
    rw [entered_live, if_neg (show ¬(1 : UInt64) = 2 by decide)]
    exact AList.lookup_insert _
  have hsell : (Venue.entered ⟨3, 2, bidderTables, s.venue.book⟩ 2 idA.bytes .sell 9998 10).live 2 =
      some ⟨2, idA.bytes, exchangeId 2, .sell, 9998, 10⟩ := by
    rw [entered_live, if_pos rfl]
    rfl
  obtain ⟨s', hs', hmsgs'⟩ := hstands.accept_trade hacc hadd
    ⟨hbuy, hsell, rfl, rfl, show (1 : UInt64) ≠ 2 by decide, show (0 : UInt32) < 10 by decide,
      UInt32.le_refl _, UInt32.le_refl _, UInt32.le_refl _, UInt32.le_refl _⟩
  have hold : repliesTo desk.conn s = [bidAck] := by
    rw [repliesTo, hmsgs]
    rfl
  have hnew : repliesTo desk.conn s' = [bidAck, bidFill] := by
    have hleft : (10 : UInt32) - 10 = 0 := by decide
    rw [repliesTo, hmsgs', hmsgs, LiveOrder.fill, LiveOrder.fill, hleft]
    rfl
  have htwo : s'.accepted = 2 := by
    rw [Session.accepted, hmsgs', hmsgs]
    rfl
  refine ⟨s', ?_, hnew, by rw [htwo]; decide⟩
  obtain ⟨v, hv, hsteps⟩ := hreach
  have hreplies : repliesTo desk.conn s' =
      repliesTo desk.conn s ++ [(bidFill, epoch)].map Prod.fst := by
    rw [hold, hnew]
    rfl
  have hothers : ByOthers desk.conn (.line 2 (newOrderLine idA .sell 9998 10 idA)) :=
    show (2 : ConnId) ≠ 1 by decide
  have hstep : Step build desk ⟨bidder, [], s, [.reply bidAck epoch], []⟩
      ⟨bidder, [], s', [.reply bidAck epoch, .reply bidFill epoch], []⟩ :=
    .others [(bidFill, epoch)] hothers hs' hreplies
  exact ⟨v, hv, hsteps.tail hstep⟩

section Moves

variable {softCap : Nat} {W : World cap}

theorem Reachable.tail {W' : World cap} (h : Reachable build softCap c W)
    (hstep : Step build c W W') : Reachable build softCap c W' := by
  obtain ⟨v, hv, hsteps⟩ := h
  exact ⟨v, hv, hsteps.tail hstep⟩

/-- The ACK and the FILL are read. -/
theorem Reachable.filled (h : Reachable build softCap c W)
    (front : W.toMaker = [.reply bidAck epoch, .reply bidFill epoch]) (hread : W.read = []) :
    Reachable build softCap c { W with
      maker := W.maker.booked bidFill
      toMaker := []
      read := [(W.maker.pairs.length, bidAck), (W.maker.pairs.length, bidFill)] } := by
  have hack := h.tail (.deliver front
    ((receive_reply W.maker bidAck epoch).trans (if_pos (by decide +kernel))))
  have hfill := hack.tail (.deliver rfl
    ((receive_reply _ bidFill epoch).trans (if_pos (by decide +kernel))))
  rw [hread] at hfill
  exact hfill

/-- The maker has moved alone. -/
structure Alone (W W' : World cap) : Prop where
  session : W'.session = W.session
  toMaker : W'.toMaker = W.toMaker
  read : W'.read = W.read

theorem exists_cancelled {quote : Quote} {left : List (List Char)} (h : Reachable build softCap c W)
    (hpc : W.maker.pc = .cancelling quote left) : ∃ W', Reachable build softCap c W' ∧
      W'.maker.pc = .cancelling quote [] ∧ W'.maker.pairs = W.maker.pairs ∧ Alone W W' := by
  induction left generalizing W with
  | nil => exact ⟨W, h, hpc, rfl, rfl, rfl, rfl⟩
  | cons oid left ih =>
    obtain ⟨W', h', hpc', hpairs, hsame⟩ := ih (h.tail (.cancel epoch hpc)) rfl
    exact ⟨W', h', hpc', hpairs, hsame.session, hsame.toMaker, hsame.read⟩

/-- A sleeping maker runs a tick. -/
theorem exists_tick (h : Reachable build softCap c W) (hpc : W.maker.pc = .asleep) :
    ∃ W', Reachable build softCap c W' ∧ W'.maker.pc = .asleep ∧
      (∃ p, W'.maker.pairs = W.maker.pairs ++ [p]) ∧ Alone W W' := by
  obtain ⟨W', h', hpc', hpairs, hsame⟩ := exists_cancelled (h.tail (.quote 100 hpc)) rfl
  have hbid := h'.tail (.bid epoch hpc')
  have hmade : ∀ quote, (W'.maker.registered c quote).pairs =
      W.maker.pairs ++ [W'.maker.nextPair c quote] := fun quote => congrArg (· ++ [_]) hpairs
  exact ⟨_, hbid.tail (.ask epoch rfl), rfl, ⟨_, hmade _⟩, hsame.session, hsame.toMaker, hsame.read⟩

end Moves

/-- What the fill comes to. -/
theorem inventoryOf_bidFill {pairs : List Pair} (h : sideIn pairs (utf8 (desk.id 1)) = some .buy) :
    inventoryOf pairs [bidAck, bidFill] = 10 := by
  have hqty : (10 : UInt32).toNat = 10 := rfl
  show signedQty pairs bidAck + (signedQty pairs bidFill + 0) = 10
  rw [bidFill, signedQty_fill h, bidAck, hqty]
  show (0 : ℚ) + ((10 : ℕ) + 0) = 10
  norm_num

theorem position_reconciles_first_sale : ∃ W : World 4, W.toMaker = [] ∧
    repliesTo desk.conn W.session = [bidAck, bidFill] ∧ W.maker.position.inventory = 10 := by
  obtain ⟨s, hreach, hreplies, -⟩ := first_sale .debug
  have hread := hreach.filled rfl rfl
  have hpairs : (bidder.booked bidFill).pairs = [⟨desk.id 1, desk.id 2, ⟨9998, 10002⟩⟩] := rfl
  have hside : sideIn (bidder.booked bidFill).pairs (utf8 (desk.id 1)) = some .buy :=
    sideIn_bid (List.mem_singleton_self (⟨desk.id 1, desk.id 2, ⟨9998, 10002⟩⟩ : Pair))
  have hrec := (position_reconciles hread fun p hp => absurd hp List.not_mem_nil).2.2.2.2
  refine ⟨⟨bidder.booked bidFill, [], s, [], [(1, bidAck), (1, bidFill)]⟩, rfl, hreplies,
    (hrec ?_).1.trans ?_⟩
  · intro x hx hfill
    rcases List.mem_cons.mp hx with rfl | hx
    · cases hfill
    · rw [List.mem_singleton.mp hx]
      exact congrArg Option.isSome hside
  · show inventoryOf (bidder.booked bidFill).pairs (repliesTo desk.conn s) = 10
    rw [hreplies, inventoryOf_bidFill hside]

/-- A fill read after two more ticks is dropped. -/
theorem late_fill_dropped : ¬∀ W : World 4, Reachable .debug 3 desk W →
    (∀ p ∈ W.toMaker, ∀ m, p.reply? = some m → m.isFill = false) →
    W.maker.position.inventory = inventoryOf W.maker.pairs (repliesTo desk.conn W.session) := by
  intro hclaim
  obtain ⟨s, hreach, hreplies, -⟩ := first_sale .debug
  have hask := hreach.tail (.ask epoch rfl)
  obtain ⟨W₂, h₂, hpc₂, ⟨p₂, hpairs₂⟩, hsame₂⟩ := exists_tick hask rfl
  obtain ⟨W₃, h₃, -, ⟨p₃, hpairs₃⟩, hsame₃⟩ := exists_tick h₂ hpc₂
  let p₁ : Pair := ⟨desk.id 1, desk.id 2, ⟨9998, 10002⟩⟩
  have hpairs : W₃.maker.pairs = [p₁, p₂, p₃] := by
    rw [hpairs₃, hpairs₂]
    rfl
  -- its order has left the dictionary
  have hold : sideIn [p₂, p₃] (utf8 (desk.id 1)) = none := by
    have hnumbered := h₃.booked.numbered
    rw [hpairs] at hnumbered
    obtain ⟨hbid₂, hask₂⟩ := hnumbered 1 p₂ rfl
    obtain ⟨hbid₃, hask₃⟩ := hnumbered 2 p₃ rfl
    cases hside : sideIn [p₂, p₃] (utf8 (desk.id 1)) with
    | none => rfl
    | some side =>
      obtain ⟨p, hp, ⟨hid, -⟩ | ⟨hid, -⟩⟩ := sideIn_eq_some hside <;>
        rcases List.mem_cons.mp hp with rfl | hp
      · exact absurd (desk.id_inj (hbid₂ ▸ hid)) (by decide)
      · rw [List.mem_singleton.mp hp, hbid₃] at hid
        exact absurd (desk.id_inj hid) (by decide)
      · exact absurd (desk.id_inj (hask₂ ▸ hid)) (by decide)
      · rw [List.mem_singleton.mp hp, hask₃] at hid
        exact absurd (desk.id_inj hid) (by decide)
  have hsame : W₃.maker.booked bidFill = W₃.maker := by
    refine Maker.booked_unknown ((h₃.booked.sides _).trans ?_)
    rw [hpairs]
    exact hold
  have hread := h₃.filled (hsame₃.toMaker.trans hsame₂.toMaker) (hsame₃.read.trans hsame₂.read)
  have hten := hclaim _ hread fun p hp => absurd hp List.not_mem_nil
  have hzero := h₃.booked.inventory
  have hside : sideIn W₃.maker.pairs (utf8 (desk.id 1)) = some .buy := by
    rw [hpairs]
    exact sideIn_bid (p := p₁) List.mem_cons_self
  have hsession : repliesTo desk.conn W₃.session = [bidAck, bidFill] := by
    rw [hsame₃.session, hsame₂.session]
    exact hreplies
  rw [hsame, hsession, inventoryOf_bidFill hside] at hten
  rw [hsame₃.read.trans hsame₂.read, hten] at hzero
  have hne : (10 : ℚ) ≠ 0 := by norm_num
  exact hne hzero

end MarketMakerOps.Ops
