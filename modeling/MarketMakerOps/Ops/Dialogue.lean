import MarketMakerOps.Exchange.Conversations
import MarketMakerOps.Ops.Quotes

/-!
What the maker is told about its quotes.

* `Phase.Path.led`: its requests, as far as the venue has taken them, keep its ids apart;
* `Asked`: the requests taken and those under way are one path from the start;
* `World.UnderWay`: a quote the venue has not taken yet;
* `quotes_are_answered`: every other quote has one of a few conversations, and the next quote of its
  side is not answered before it is over.
-/

namespace MarketMakerOps.Ops

open Decimal Engine Exchange Fallible

variable {cap softCap : Nat} {build : Build} {c : Client}

/-! ## Requests -/

section Requests

variable {id : List Char} {side : OrderSide} {price : Price} {t : UtcTime} {cid : Bytes}

theorem isOrder_newOrder (hid : ∀ ch ∈ id, isLegible ch = true) :
    IsOrder ((Request.newOrder id side price).payload t) (utf8 id) := by
  have hparse := parseInbound_newOrderRequest id side price t
  rw [if_pos (allLegible_iff.mpr hid)] at hparse
  refine ⟨?_, ?_, ?_, ?_, ⟨side, ?_⟩, ⟨10, ?_, by decide⟩⟩ <;> rw [hparse]
  rfl

theorem isCancel_cancel (hid : ∀ ch ∈ id, isLegible ch = true) :
    IsCancel ((Request.cancel id).payload t) (utf8 id) := by
  have hparse := parseInbound_cancelRequest id t
  rw [if_pos (allLegible_iff.mpr hid)] at hparse
  constructor <;> rw [hparse]

end Requests

/-! ## Paths -/

namespace Phase

variable {pairs : List Pair} {φ χ ψ : Phase} {r : Request} {rs rs' : List Request}

theorem Path.split (h : Path c pairs φ (rs ++ rs') ψ) : ∃ χ, Path c pairs φ rs χ ∧
    Path c pairs χ rs' ψ := by
  induction rs generalizing φ with
  | nil => exact ⟨φ, .nil φ, h⟩
  | cons r rs ih =>
    cases h with
    | cons next rest =>
      obtain ⟨χ, hfst, hsnd⟩ := ih rest
      exact ⟨χ, .cons next hfst, hsnd⟩

/-- The requests that lead to a phase: its ids are ordered, and all but those of its orders
cancelled. -/
structure Led (c : Client) (φ : Phase) (lines : List Bytes) : Prop where
  tidy : Tidy lines
  ordered : ∀ cid, Ordered lines cid ↔ ∃ n, 1 ≤ n ∧ n ≤ φ.used ∧ cid = utf8 (c.id n)
  withdrawn : ∀ cid, Withdrawn lines cid ↔
    ∃ n, 1 ≤ n ∧ n ≤ φ.used ∧ n ∉ φ.orders.map Prod.fst ∧ cid = utf8 (c.id n)

section Led

variable {lines : List Bytes} {payload : Bytes} {k : Nat}

theorem Led.order (h : Led c φ lines) (hused : χ.used = φ.used + 1)
    (horders : ∀ n, n ∈ χ.orders.map Prod.fst ↔ n ∈ φ.orders.map Prod.fst ∨ n = φ.used + 1)
    (horder : IsOrder payload (utf8 (c.id (φ.used + 1)))) : Led c χ (lines ++ [payload]) := by
  have hfresh : ¬Ordered lines (utf8 (c.id (φ.used + 1))) := by
    rw [h.ordered]
    rintro ⟨n, -, hn, hid⟩
    have := c.id_inj hid
    omega
  refine ⟨h.tidy.order horder hfresh, fun cid => ?_, fun cid => ?_⟩
  · rw [ordered_snoc, h.ordered, hused]
    constructor
    · rintro (⟨n, hpos, hn, rfl⟩ | hcid)
      · exact ⟨n, hpos, hn.trans (Nat.le_succ _), rfl⟩
      · exact ⟨φ.used + 1, Nat.le_add_left 1 _, le_rfl, horder.names_eq hcid⟩
    · rintro ⟨n, hpos, hn, rfl⟩
      rcases Nat.lt_or_eq_of_le hn with hlt | rfl
      · exact Or.inl ⟨n, hpos, Nat.le_of_lt_succ hlt, rfl⟩
      · exact Or.inr horder
  · rw [withdrawn_snoc, or_iff_left horder.not_isCancel, h.withdrawn, hused]
    constructor
    · rintro ⟨n, hpos, hn, hout, rfl⟩
      refine ⟨n, hpos, hn.trans (Nat.le_succ _), ?_, rfl⟩
      rw [horders, not_or]
      exact ⟨hout, by omega⟩
    · rintro ⟨n, hpos, hn, hout, rfl⟩
      rw [horders, not_or] at hout
      exact ⟨n, hpos, by omega, hout.1, rfl⟩

theorem Led.cancel (h : Led c φ lines) (hused : χ.used = φ.used)
    (hk : k ∈ φ.orders.map Prod.fst)
    (horders : ∀ n, n ∈ χ.orders.map Prod.fst ↔ n ∈ φ.orders.map Prod.fst ∧ n ≠ k)
    (hcancel : IsCancel payload (utf8 (c.id k))) : Led c χ (lines ++ [payload]) := by
  obtain ⟨o, ho, hok⟩ := List.mem_map.mp hk
  obtain ⟨hpos, hle⟩ := orders_used ho
  rw [hok] at hpos hle
  have hordered : Ordered lines (utf8 (c.id k)) := (h.ordered _).mpr ⟨k, hpos, hle, rfl⟩
  have honce : ¬Withdrawn lines (utf8 (c.id k)) := by
    rw [h.withdrawn]
    rintro ⟨n, -, -, hout, hid⟩
    rw [← c.id_inj hid] at hout
    exact hout hk
  refine ⟨h.tidy.cancel hcancel hordered honce, fun cid => ?_, fun cid => ?_⟩
  · have hnot : ¬IsOrder payload cid := fun hnew => hnew.not_isCancel hcancel
    rw [ordered_snoc, or_iff_left hnot, h.ordered, hused]
  · rw [withdrawn_snoc, h.withdrawn, hused]
    constructor
    · rintro (⟨n, hpos, hn, hout, rfl⟩ | hcid)
      · exact ⟨n, hpos, hn, fun hmem => hout ((horders n).mp hmem).1, rfl⟩
      · exact ⟨k, hpos, hle, fun hmem => ((horders k).mp hmem).2 rfl, hcancel.names_eq hcid⟩
    · rintro ⟨n, hpos, hn, hout, rfl⟩
      by_cases hnk : n = k
      · exact Or.inr (hnk ▸ hcancel)
      · exact Or.inl ⟨n, hpos, hn, fun hmem => hout ((horders n).mpr ⟨hmem, hnk⟩), rfl⟩

/-- The next request. -/
theorem Led.next (h : Led c φ lines) (hr : Next c pairs φ r χ)
    (hrun : ∀ ch ∈ c.runId, isLegible ch = true) (t : UtcTime) :
    Led c χ (lines ++ [r.payload t]) := by
  have hid : ∀ n, ∀ ch ∈ c.id n, isLegible ch = true := fun n => (c.isLegible_id n).mpr hrun
  cases hr with
  | bid n q made => exact h.order rfl (by simp [orders, used]) (isOrder_newOrder (hid _))
  | ask n q => exact h.order rfl (by simp [orders, used]) (isOrder_newOrder (hid _))
  | cancelBid n q =>
    refine h.cancel rfl ?_ ?_ (isCancel_cancel (hid _))
    · simp [orders]
    · simp [orders]
      omega
  | cancelAsk n q =>
    refine h.cancel rfl ?_ ?_ (isCancel_cancel (hid _))
    · simp [orders]
    · simp [orders]

/-- The order a request of a path makes is of a pair. -/
theorem Path.pair (h : Path c pairs φ rs χ) (hφ : φ.Known c pairs) {id : List Char}
    {side : OrderSide} {price : Price} (hr : .newOrder id side price ∈ rs) : ∃ p ∈ pairs,
      (id = p.bidId ∧ price = p.quote.bid) ∨ (id = p.askId ∧ price = p.quote.ask) := by
  induction h with
  | nil φ => cases hr
  | cons next rest ih =>
    rcases List.mem_cons.mp hr with heq | hr
    · cases next with
      | bid n q made =>
        cases heq
        exact ⟨_, made, Or.inl ⟨rfl, rfl⟩⟩
      | ask n q =>
        cases heq
        exact ⟨_, hφ, Or.inr ⟨rfl, rfl⟩⟩
      | cancelBid n q => cases heq
      | cancelAsk n q => cases heq
    · exact ih (next.known hφ) hr

/-- A path orders the ids it uses. -/
theorem Path.orders (h : Path c pairs φ rs χ) {n : Nat} (hφ : φ.used < n) (hχ : n ≤ χ.used) :
    ∃ side price, .newOrder (c.id n) side price ∈ rs := by
  induction h with
  | nil φ => omega
  | @cons φ χ ψ r rs next rest ih =>
    by_cases hn : χ.used < n
    · obtain ⟨side, price, hmem⟩ := ih hn hχ
      exact ⟨side, price, List.mem_cons_of_mem _ hmem⟩
    · cases next with
      | bid k q made =>
        obtain rfl : n = k + 1 := by
          simp only [used] at hφ hn
          omega
        exact ⟨_, _, List.mem_cons_self⟩
      | ask k q =>
        obtain rfl : n = k + 2 := by
          simp only [used] at hφ hn
          omega
        exact ⟨_, _, List.mem_cons_self⟩
      | cancelBid k q => exact absurd hφ hn
      | cancelAsk k q => exact absurd hφ hn

theorem Led.start : Led c (.clear 0) [] := by
  refine ⟨.nil, fun cid => ⟨?_, ?_⟩, fun cid => ⟨?_, ?_⟩⟩
  · rintro ⟨payload, hmem, -⟩
    cases hmem
  · rintro ⟨n, hpos, hn, -⟩
    exact absurd (hpos.trans hn) (by decide)
  · rintro ⟨payload, hmem, -⟩
    cases hmem
  · rintro ⟨n, hpos, hn, -⟩
    exact absurd (hpos.trans hn) (by decide)

end Led

end Phase

/-! ## Runs -/

/-- The requests the venue has taken and those under way are one path from the start. -/
structure Asked (c : Client) (W : World cap) (taken : List (Request × UtcTime)) : Prop where
  lines : W.session.linesOf c.conn = taken.map fun x => x.1.payload x.2
  stay : ∀ x ∈ W.session.history, x.1 ≠ .drop c.conn
  path : ∃ ψ, Phase.Path c W.maker.pairs (.clear 0) ((taken ++ W.toVenue).map Prod.fst) ψ ∧
    AtPhase c W.maker.pc W.maker.seq W.maker.resting ψ

section Runs

variable {W W' : World cap} {taken : List (Request × UtcTime)}

/-- The maker moves and sends a request. -/
theorem Asked.sent (h : Asked c W taken) {M : Maker} {r : Request} (t : UtcTime)
    (hpath : ∀ rs ψ, Phase.Path c W.maker.pairs (.clear 0) rs ψ →
      AtPhase c W.maker.pc W.maker.seq W.maker.resting ψ →
      ∃ χ, Phase.Path c M.pairs (.clear 0) (rs ++ [r]) χ ∧ AtPhase c M.pc M.seq M.resting χ) :
    Asked c (W.sent M r t) taken := by
  obtain ⟨ψ, hp, hat⟩ := h.path
  obtain ⟨χ, hp', hat'⟩ := hpath _ ψ hp hat
  refine ⟨h.lines, h.stay, χ, ?_, hat'⟩
  rw [List.map_append] at hp' ⊢
  rw [World.sent, List.map_append, ← List.append_assoc]
  exact hp'

theorem Asked.step (h : Asked c W taken) (hstep : Step build c W W') :
    ∃ taken', Asked c W' taken' := by
  cases hstep with
  | quote fairValue pc =>
    obtain ⟨ψ, hp, hat⟩ := h.path
    refine ⟨taken, h.lines, h.stay, ψ, hp, ?_⟩
    have hlt := computeQuote_lt fairValue W.maker.position.inventory
    unfold Maker.quoted
    dsimp only
    rw [pc] at hat
    generalize W.maker.seq = seq at hat ⊢
    generalize W.maker.resting = resting at hat ⊢
    cases hat with
    | fresh => exact .quoted hlt
    | rested n q => exact .cancelBid n q hlt
  | @cancel quote oid left t pc =>
    refine ⟨taken, h.sent t fun rs ψ hp hat => ?_⟩
    rw [pc] at hat
    unfold Maker.cancelled
    dsimp only
    generalize W.maker.seq = seq at hat ⊢
    generalize W.maker.resting = resting at hat ⊢
    cases hat with
    | cancelBid n q hlt => exact ⟨_, hp.snoc (.cancelBid n q), .cancelAsk n q hlt⟩
    | cancelAsk n q hlt => exact ⟨_, hp.snoc (.cancelAsk n q), .cleared n hlt⟩
  | @bid quote t pc =>
    refine ⟨taken, h.sent t fun rs ψ hp hat => ?_⟩
    rw [pc] at hat
    have hp' := hp.mono (W.maker.nextPair c quote)
    have hmade : W.maker.nextPair c quote ∈ W.maker.pairs ++ [W.maker.nextPair c quote] :=
      List.mem_append_right _ (List.mem_singleton_self _)
    have hclear : ψ = .clear W.maker.seq := by
      generalize W.maker.seq = seq at hat ⊢
      generalize W.maker.resting = resting at hat
      cases hat <;> rfl
    rw [hclear] at hp'
    exact ⟨_, hp'.snoc (.bid W.maker.seq quote hmade), .asking W.maker.seq quote W.maker.resting⟩
  | @ask pair t pc =>
    refine ⟨taken, h.sent t fun rs ψ hp hat => ?_⟩
    rw [pc] at hat
    unfold Maker.asked
    dsimp only
    generalize W.maker.seq = seq at hat ⊢
    generalize W.maker.resting = resting at hat
    cases hat with
    | asking n q => exact ⟨_, hp.snoc (.ask n q), .rested n q⟩
  | @take r t rest s ps front call replies =>
    refine ⟨taken ++ [(r, t)], ?_, ?_, ?_⟩
    · show Session.linesOf s c.conn = _
      rw [Session.linesOf_of_step call, h.lines, List.map_append, Event.lineOf, if_pos rfl]
      rfl
    · show ∀ x ∈ s.history, _
      rw [Session.history_of_step call, List.forall_mem_append]
      refine ⟨h.stay, fun x hx => ?_⟩
      rw [List.mem_singleton.mp hx]
      exact fun he => by cases he
    · obtain ⟨ψ, hp, hat⟩ := h.path
      refine ⟨ψ, ?_, hat⟩
      show Phase.Path c W.maker.pairs (.clear 0) ((taken ++ [(r, t)] ++ rest).map Prod.fst) ψ
      rw [front] at hp
      rw [List.append_assoc]
      exact hp
  | @others ev s ps byOthers call replies =>
    have hline : ev.lineOf c.conn = none := by
      cases ev with
      | line conn payload => exact if_neg byOthers
      | drop conn => rfl
    refine ⟨taken, ?_, ?_, h.path⟩
    · show Session.linesOf s c.conn = _
      rw [Session.linesOf_of_step call, hline, Option.toList_none, List.append_nil]
      exact h.lines
    · show ∀ x ∈ s.history, _
      rw [Session.history_of_step call, List.forall_mem_append]
      refine ⟨h.stay, fun x hx => ?_⟩
      rw [List.mem_singleton.mp hx]
      rintro rfl
      exact byOthers rfl
  | broadcast p noReply => exact ⟨taken, h.lines, h.stay, h.path⟩
  | deliver front handled =>
    obtain ⟨position, rfl⟩ := Maker.receive_spec handled
    exact ⟨taken, h.lines, h.stay, h.path⟩

theorem Reachable.asked (h : Reachable build softCap c W) : ∃ taken, Asked c W taken := by
  obtain ⟨v, hv, hsteps⟩ := h
  induction hsteps with
  | refl =>
    exact ⟨[], rfl, fun x hx => absurd hx List.not_mem_nil, .clear 0, .nil _, .fresh⟩
  | tail _ hstep ih =>
    obtain ⟨taken, hasked⟩ := ih
    exact hasked.step hstep

end Runs

end MarketMakerOps.Ops
