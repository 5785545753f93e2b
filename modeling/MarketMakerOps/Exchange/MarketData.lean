import MarketMakerOps.Exchange.Server

/-!
The market data feed is never stale.

* `Conn.shown`: the last top of the book appended to an output stream;
* `Shown`: every connection was last shown `lastTop_`; every step keeps it;
* `feed_is_current`: between two iterations that is the top of the book.
-/

namespace MarketMakerOps.Exchange

open Decimal Engine Fallible

variable {cap softCap : Nat} {build : Build}

def Payload.top? : Payload → Option Venue.Top
  | .marketData top => some top
  | _ => none

/-- The top of the book a connection was shown last. -/
def Conn.shown (c : Conn) : Option Venue.Top := (c.out.filterMap Payload.top?).getLast?

theorem shown_marketData (c : Conn) (top : Venue.Top) :
    Conn.shown { c with out := c.out ++ [.marketData top] } = some top := by
  simp [Conn.shown, Payload.top?]

/-- Replies show nothing. -/
theorem shown_replies {c c' : Conn} {ms : List Outbound} (h : c'.out = c.out ++ ms.map .reply) :
    c'.shown = c.shown := by
  have hnone : (ms.map Payload.reply).filterMap Payload.top? = [] := by
    clear h
    induction ms with
    | nil => rfl
    | cons m ms ih => exact ih
  rw [Conn.shown, h, List.filterMap_append, hnone, List.append_nil, Conn.shown]

namespace Server

variable {s s' : Server cap}

/-- Every connection was last shown `lastTop_`. -/
def Shown (s : Server cap) : Prop := ∀ fd c, s.conns fd = some c → c.shown = some s.lastTop

/-- A step that only adds replies. -/
theorem Shown.replies (h : s.Shown) (htop : s'.lastTop = s.lastTop)
    (hconns : ∀ fd c', s'.conns fd = some c' →
      ∃ c, s.conns fd = some c ∧ ∃ ms : List Outbound, c'.out = c.out ++ ms.map .reply) :
    s'.Shown := by
  intro fd c' hc'
  obtain ⟨c, hc, ms, hms⟩ := hconns fd c' hc'
  rw [shown_replies hms, htop]
  exact h fd c hc

theorem Shown.elsewhere {fd : Fd} (h : s.Shown) (helse : Elsewhere fd s s')
    (hfd : ∀ c', s'.conns fd = some c' →
      ∃ c, s.conns fd = some c ∧ ∃ ms : List Outbound, c'.out = c.out ++ ms.map .reply) :
    s'.Shown := by
  refine h.replies helse.lastTop fun fd' c' hc' => ?_
  by_cases heq : fd' = fd
  · subst heq
    exact hfd c' hc'
  · obtain ⟨c, hc, hr⟩ := helse.others fd' c' heq hc'
    exact ⟨c, hc, hr.out⟩

theorem Shown.closeConn (h : s.Shown) {fd : Fd} {how : Closing} {c : Conn}
    (hc : s.conns fd = some c) (hs' : s.closeConn build fd how = .ok s') : s'.Shown := by
  obtain ⟨helse, hnone, -⟩ := closeConn_spec hc hs'
  refine h.elsewhere helse fun c' hc' => ?_
  rw [hnone] at hc'
  cases hc'

theorem Shown.handleReadable (h : s.Shown) {fd : Fd} {rs : List Recv} {c : Conn}
    (hc : s.conns fd = some c) (hs' : s.handleReadable build fd rs = .ok s') : s'.Shown := by
  obtain ⟨helse, hread⟩ := handleReadable_cases hc hs'
  refine h.elsewhere helse fun c' hc' => ?_
  rcases hread with ⟨c₁, hc₁, -, hdrained⟩ | ⟨hnone, -⟩
  · rw [hc', Option.some_inj] at hc₁
    exact ⟨c, hc, hc₁ ▸ hdrained.out⟩
  · rw [hnone] at hc'
    cases hc'

theorem Shown.serve (h : s.Shown) {r : Ready} (hs' : s.serve build r = .ok s') : s'.Shown :=
  serve_inv (fun _ _ _ _ _ h hc _ hs' => Shown.closeConn h hc hs')
    (fun _ _ _ _ _ h hc hs' => Shown.handleReadable h hc hs') h hs'

/-- A broadcast of the top shows it to all. -/
theorem shown_broadcast (s : Server cap) :
    (s.broadcastPayload (.marketData s.lastTop)).Shown := by
  intro fd c' hc'
  obtain ⟨c, hc, rfl⟩ := Option.map_eq_some_iff.mp hc'
  exact shown_marketData c s.lastTop

/-- A new connection is shown the top of the book at once. -/
theorem Shown.acceptOne (h : s.Shown) (htop : s.lastTop = s.venue.currentTop) (cfd : Fd) :
    (s.acceptOne cfd).Shown := by
  obtain ⟨htop', -, -, c, -, hconns⟩ := acceptOne_spec s cfd
  intro fd c' hc'
  rw [hconns] at hc'
  rw [htop']
  by_cases hfd : fd = cfd
  · subst hfd
    rw [Function.update_self, Option.some_inj] at hc'
    rw [← hc', htop]
    exact shown_marketData c _
  · rw [Function.update_of_ne hfd] at hc'
    exact h fd c' hc'

theorem Shown.acceptNew (h : s.Shown) (htop : s.lastTop = s.venue.currentTop)
    (accepts : List Fd) : (s.acceptNew accepts).Shown ∧
      (s.acceptNew accepts).lastTop = s.lastTop ∧ (s.acceptNew accepts).session = s.session := by
  induction accepts generalizing s with
  | nil => exact ⟨h, rfl, rfl⟩
  | cons cfd accepts ih =>
    have h₁ := h.acceptOne htop cfd
    obtain ⟨htop₁, hsame₁, -⟩ := acceptOne_spec s cfd
    have hvenue : (s.acceptOne cfd).venue = s.venue := congrArg Session.venue hsame₁
    obtain ⟨h₂, htop₂, hsame₂⟩ := ih h₁ (by rw [htop₁, htop, hvenue])
    exact ⟨h₂, htop₂.trans htop₁, hsame₂.trans hsame₁⟩

theorem Shown.ready (h : s.Shown) {ready : List Ready}
    (hs' : Fallible.run (Server.serve build) s ready = .ok s') : s'.Shown :=
  run_inv (fun _ _ _ h hs => Shown.serve h hs) h hs'

/-- One iteration. -/
theorem Shown.pass (h : s.Shown) (htop : s.lastTop = s.venue.currentTop) {p : Pass}
    (hs' : s.pass build p = .ok s') : s'.Shown ∧ s'.lastTop = s'.venue.currentTop := by
  obtain ⟨s₁, hs₁, hs'⟩ := bind_eq_ok.mp hs'
  have hbeat : (if p.heartbeat then s.broadcastFeed else s).Shown ∧
      (if p.heartbeat then s.broadcastFeed else s).lastTop =
        (if p.heartbeat then s.broadcastFeed else s).venue.currentTop := by
    split
    · exact ⟨shown_broadcast _, rfl⟩
    · exact ⟨h, htop⟩
  have h₁ := (hbeat.1.acceptNew hbeat.2 p.accepts).1.ready hs₁
  dsimp only at hs'
  split at hs'
  · cases hs'
    exact ⟨shown_broadcast { s₁ with lastTop := s₁.venue.currentTop }, rfl⟩
  · next hne =>
    cases hs'
    exact ⟨h₁, (not_not.mp hne).symm⟩

end Server

/-- After every iteration `lastTop_` is the top of the book, and it is what every open connection
was shown last. -/
theorem feed_is_current {passes : List Pass} {s : Server cap}
    (h : Server.run build cap softCap passes = .ok s) : s.lastTop = s.venue.currentTop ∧
      ∀ fd c, s.conns fd = some c → c.shown = some s.venue.currentTop := by
  have hinv := Server.inv_of_run (fun s => s.Shown ∧ s.lastTop = s.venue.currentTop)
    (fun v hv => ⟨fun _ _ hc => (by cases hc), ?_⟩) (fun s p s' hs hpass => hs.1.pass hs.2 hpass) h
  · exact ⟨hinv.2, fun fd c hc => (hinv.1 fd c hc).trans (congrArg some hinv.2)⟩
  · obtain ⟨b, hb, hv⟩ := bind_eq_ok.mp hv
    obtain ⟨pool, -, hb⟩ := bind_eq_ok.mp hb
    cases hv
    cases hb
    rfl

/-- Connection 5 is accepted, and bids in the iteration that accepts connection 6. -/
def bidAndAccept : List Pass :=
  [⟨true, [5], []⟩,
    ⟨false, [6],
      [⟨5, false, some [.data (encodeFrame (newOrderLine idA .buy 100 5 idA)), .again], none⟩]⟩]

theorem feed_is_current_bid_and_accept : ∃ (s : Server 3) (c : Conn),
    Server.run .debug 3 2 bidAndAccept = .ok s ∧ s.conns 6 = some c ∧
      c.shown = some ⟨true, 100, false, 0, false, 0⟩ := by
  obtain ⟨s, hs, hp⟩ := exists_ok (x := Server.run .debug 3 2 bidAndAccept)
    (p := fun s => (s.conns 6).isSome && s.venue.currentTop = ⟨true, 100, false, 0, false, 0⟩)
    (by decide +kernel)
  rw [Bool.and_eq_true, decide_eq_true_eq] at hp
  obtain ⟨c, hc⟩ := Option.isSome_iff_exists.mp hp.1
  exact ⟨s, c, hs, hc, hp.2 ▸ (feed_is_current hs).2 6 c hc⟩

end MarketMakerOps.Exchange
