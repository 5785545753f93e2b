import MarketMakerOps.Exchange.Numbers

/-!
The JSON parser of `venue/protocol.cpp` as the source writes it: one string, an
index that moves through it, and loops.

A read behind the end of the string and a loop that does not stop are faults.
`parseFlatObject_scan` rules both out: the parser on suffixes is what the indices
compute.
-/

namespace MarketMakerOps.Exchange

open Decimal

namespace Scan

inductive Fault
  | pastEnd
  | loopFuel
  deriving DecidableEq, Repr

/-- `s[i]`. -/
def charAt (s : Bytes) (i : Nat) : Except Fault UInt8 :=
  if h : i < s.length then .ok s[i] else .error .pastEnd

/-- `i < s.size() && p(s[i])`: the string is read when the bound holds. -/
def peek (s : Bytes) (i : Nat) (p : UInt8 → Bool) : Except Fault Bool :=
  if i < s.length then do
    let c ← charAt s i
    pure (p c)
  else pure false

/-- `while (i < s.size() && p(s[i])) ++i`, for at most so many rounds. -/
def scanLoop (s : Bytes) (p : UInt8 → Bool) : Nat → Nat → Except Fault Nat
  | 0, _ => .error .loopFuel
  | fuel + 1, i => do
    if ← peek s i p then scanLoop s p fuel (i + 1) else pure i

/-- Each round passes a byte. -/
def scan (s : Bytes) (p : UInt8 → Bool) (i : Nat) : Except Fault Nat :=
  scanLoop s p (s.length + 1) i

def skipWs (s : Bytes) (i : Nat) : Except Fault Nat := scan s isWs i

/-- The loop of `parseString`, behind the opening quote. -/
def stringLoop (s : Bytes) : Nat → Bytes → Nat → Except Fault (Option (Bytes × Nat))
  | 0, _, _ => .error .loopFuel
  | fuel + 1, out, i =>
    if i < s.length then do
      let c ← charAt s i
      let i := i + 1
      if c = 34 then pure (some (out, i))
      else if c = 92 then
        if i ≥ s.length then pure none
        else do
          let e ← charAt s i
          let i := i + 1
          match unescape e with
          | none => pure none
          | some d => stringLoop s fuel (out ++ [d]) i
      else stringLoop s fuel (out ++ [c]) i
    else pure none

def parseString (s : Bytes) (i : Nat) : Except Fault (Option (Bytes × Nat)) := do
  if ← peek s i (· = 34) then stringLoop s (s.length + 1) [] (i + 1) else pure none

def parseNumber (s : Bytes) (i : Nat) : Except Fault (Option (Bytes × Nat)) := do
  let start := i
  let i := if ← peek s i (· = 45) then i + 1 else i
  let intStart := i
  let i ← scan s isDigit i
  if i = intStart then pure none
  else if ← peek s i (· = 46) then do
    let fracStart := i + 1
    let i ← scan s isDigit fracStart
    if i = fracStart then pure none
    else pure (some ((s.drop start).take (i - start), i))
  else pure (some ((s.drop start).take (i - start), i))

def parseValue (s : Bytes) (i : Nat) : Except Fault (Option (JsonValue × Nat)) := do
  let c ← charAt s i
  if c = 34 then
    let r ← parseString s i
    pure (r.map fun x => (.str x.1, x.2))
  else
    let r ← parseNumber s i
    pure (r.map fun x => (.num x.1, x.2))

/-- The `while (true)` of `parseFlatObject`, for at most so many members. -/
def membersLoop (s : Bytes) : Nat → JsonObject → Nat → Except Fault (Option (JsonObject × Nat))
  | 0, _, _ => .error .loopFuel
  | fuel + 1, out, i => do
    let i ← skipWs s i
    match ← parseString s i with
    | none => pure none
    | some (key, i) =>
      let i ← skipWs s i
      if !(← peek s i (· = 58)) then pure none
      else do
        let i ← skipWs s (i + 1)
        if i ≥ s.length then pure none
        else
          match ← parseValue s i with
          | none => pure none
          | some (v, i) =>
            let out := out.insert key v
            let i ← skipWs s i
            if i ≥ s.length then pure none
            else do
              let c ← charAt s i
              if c = 44 then membersLoop s fuel out (i + 1)
              else if c = 125 then pure (some (out, i + 1))
              else pure none

def parseFlatObject (s : Bytes) : Except Fault (Option JsonObject) := do
  let i ← skipWs s 0
  if !(← peek s i (· = 123)) then pure none
  else do
    let i ← skipWs s (i + 1)
    if ← peek s i (· = 125) then do
      let i ← skipWs s (i + 1)
      pure (if i ≥ s.length then some ∅ else none)
    else do
      match ← membersLoop s (s.length + 1) ∅ i with
      | none => pure none
      | some (out, i) =>
        let i ← skipWs s i
        pure (if i ≥ s.length then some out else none)

end Scan

/-! ## Indices and suffixes -/

section Index

variable {s : Bytes} {i : Nat}

theorem charAt_of_drop {c : UInt8} {t : Bytes} (h : s.drop i = c :: t) :
    i < s.length ∧ Scan.charAt s i = .ok c ∧ s.drop (i + 1) = t := by
  have hi : i < s.length := by
    by_contra hge
    rw [List.drop_eq_nil_of_le (Nat.not_lt.mp hge)] at h
    cases h
  rw [List.drop_eq_getElem_cons hi] at h
  obtain ⟨hc, ht⟩ := List.cons.inj h
  exact ⟨hi, by rw [Scan.charAt, dif_pos hi, hc], ht⟩

theorem length_le_of_drop (h : s.drop i = []) : s.length ≤ i := List.drop_eq_nil_iff.mp h

/-- The guard reads the head of the suffix, if there is one. -/
theorem peek_eq (s : Bytes) (i : Nat) (p : UInt8 → Bool) :
    Scan.peek s i p = .ok ((s.drop i).head?.any p) := by
  rw [Scan.peek]
  cases h : s.drop i with
  | nil =>
    rw [if_neg (Nat.not_lt.mpr (length_le_of_drop h))]
    rfl
  | cons c t =>
    obtain ⟨hi, hc, -⟩ := charAt_of_drop h
    rw [if_pos hi, hc]
    rfl

theorem scanLoop_eq (p : UInt8 → Bool) {fuel : Nat} (hi : i ≤ s.length)
    (hfuel : s.length - i < fuel) : ∃ j, Scan.scanLoop s p fuel i = .ok j ∧ i ≤ j ∧
      j ≤ s.length ∧ s.drop j = (s.drop i).dropWhile p ∧
      (s.drop i).take (j - i) = (s.drop i).takeWhile p := by
  induction fuel generalizing i with
  | zero => omega
  | succ fuel ih =>
    rw [Scan.scanLoop, peek_eq]
    cases h : s.drop i with
    | nil => exact ⟨i, rfl, le_rfl, hi, by rw [h]; rfl, by simp⟩
    | cons c t =>
      obtain ⟨hlt, -, ht⟩ := charAt_of_drop h
      by_cases hp : p c = true
      · obtain ⟨j, hj, hij, hle, hdrop, htake⟩ := ih (i := i + 1) (by omega) (by omega)
        refine ⟨j, ?_, by omega, hle, ?_, ?_⟩
        · simp only [List.head?_cons, Option.any_some, hp]
          exact hj
        · rw [hdrop, ht, List.dropWhile_cons_of_pos hp]
        · obtain ⟨k, rfl⟩ : ∃ k, j = i + 1 + k := ⟨j - (i + 1), by omega⟩
          rw [Nat.add_sub_cancel_left, ht] at htake
          rw [List.takeWhile_cons_of_pos hp, show i + 1 + k - i = k + 1 by omega,
            List.take_succ_cons, htake]
      · refine ⟨i, ?_, le_rfl, hi, ?_, ?_⟩
        · simp only [List.head?_cons, Option.any_some, hp]
          rfl
        · rw [h, List.dropWhile_cons_of_neg hp]
        · rw [List.takeWhile_cons_of_neg hp, Nat.sub_self]
          rfl

/-- A scan moves to where the suffix has no more of its bytes. -/
theorem scan_eq (p : UInt8 → Bool) (hi : i ≤ s.length) : ∃ j, Scan.scan s p i = .ok j ∧ i ≤ j ∧
    j ≤ s.length ∧ s.drop j = (s.drop i).dropWhile p ∧
    (s.drop i).take (j - i) = (s.drop i).takeWhile p := scanLoop_eq p hi (by omega)

theorem skipWs_eq (hi : i ≤ s.length) : ∃ j, Scan.skipWs s i = .ok j ∧ i ≤ j ∧ j ≤ s.length ∧
    s.drop j = skipWs (s.drop i) := by
  obtain ⟨j, hj, hij, hle, hdrop, -⟩ := scan_eq isWs hi
  exact ⟨j, hj, hij, hle, hdrop⟩

/-- A result at an index and a result at the suffix behind it; something was read. -/
inductive Agree {α : Type*} (s : Bytes) (i : Nat) :
    Except Scan.Fault (Option (α × Nat)) → Option (α × Bytes) → Prop
  | none : Agree s i (.ok none) none
  | some (a : α) (j : Nat) (hij : i < j) (hj : j ≤ s.length) :
      Agree s i (.ok (some (a, j))) (some (a, s.drop j))

theorem Agree.weaken {α : Type*} {r : Except Scan.Fault (Option (α × Nat))} {t : Option (α × Bytes)}
    {k : Nat} (h : Agree s i r t) (hk : k ≤ i) : Agree s k r t := by
  cases h with
  | none => exact .none
  | some a j hij hj => exact .some a j (by omega) hj

/-- The loop appends what the suffix decodes to. -/
theorem stringLoop_agree (fuel : Nat) (out : Bytes) (hi : i ≤ s.length)
    (hfuel : s.length - i < fuel) : Agree s i (Scan.stringLoop s fuel out i)
      ((stringBody (s.drop i)).map fun x => (out ++ x.1, x.2)) := by
  induction fuel generalizing i out with
  | zero => omega
  | succ fuel ih =>
    rw [Scan.stringLoop, stringBody.eq_def]
    cases h : s.drop i with
    | nil =>
      rw [if_neg (Nat.not_lt.mpr (length_le_of_drop h))]
      exact .none
    | cons c t =>
      obtain ⟨hlt, hc, ht⟩ := charAt_of_drop h
      rw [if_pos hlt, hc]
      simp only [bind, Except.bind]
      by_cases hquote : c = 34
      · rw [if_pos hquote, if_pos hquote, ← ht, Option.map_some, List.append_nil]
        exact .some out (i + 1) (by omega) (by omega)
      rw [if_neg hquote, if_neg hquote]
      by_cases hback : c = 92
      · rw [if_pos hback, if_pos hback]
        cases ht' : t with
        | nil =>
          rw [ht'] at ht
          rw [if_pos (length_le_of_drop ht)]
          exact .none
        | cons e u =>
          rw [ht'] at ht
          obtain ⟨hlt', he, hu⟩ := charAt_of_drop ht
          rw [if_neg (Nat.not_le.mpr hlt'), he]
          dsimp only
          cases hesc : unescape e with
          | none => exact .none
          | some d =>
            have hrest := (ih (i := i + 1 + 1) (out ++ [d]) (by omega) (by omega)).weaken
              (show i ≤ i + 1 + 1 by omega)
            rw [hu] at hrest
            simp only [Option.bind]
            cases hbody : stringBody u with
            | none =>
              rw [hbody] at hrest
              exact hrest
            | some x =>
              rw [hbody, Option.map_some, List.append_assoc] at hrest
              exact hrest
      · rw [if_neg hback, if_neg hback]
        have hrest := (ih (i := i + 1) (out ++ [c]) (by omega) (by omega)).weaken
          (Nat.le_add_right i 1)
        rw [ht] at hrest
        cases hbody : stringBody t with
        | none =>
          rw [hbody] at hrest
          exact hrest
        | some x =>
          rw [hbody, Option.map_some, List.append_assoc] at hrest
          exact hrest

theorem parseString_agree (s : Bytes) (i : Nat) :
    Agree s i (Scan.parseString s i) (parseString (s.drop i)) := by
  rw [Scan.parseString, peek_eq]
  cases h : s.drop i with
  | nil => exact .none
  | cons c t =>
    obtain ⟨hlt, -, ht⟩ := charAt_of_drop h
    rw [parseString]
    by_cases hquote : c = 34
    · have hbody := (stringLoop_agree (s := s) (i := i + 1) (s.length + 1) []
        (by omega) (by omega)).weaken (Nat.le_add_right i 1)
      rw [ht] at hbody
      simp only [List.head?_cons, Option.any_some, hquote, decide_true, bind, Except.bind, if_true]
      cases hx : stringBody t with
      | none =>
        rw [hx] at hbody
        exact hbody
      | some x =>
        rw [hx] at hbody
        exact hbody
    · simp only [List.head?_cons, Option.any_some, hquote, decide_false, bind, Except.bind,
        if_false, Bool.false_eq_true]
      exact .none

/-- What two moves in a row pass. -/
theorem slice_append {j k : Nat} (hij : i ≤ j) (hjk : j ≤ k) : (s.drop i).take (k - i) =
    (s.drop i).take (j - i) ++ (s.drop j).take (k - j) := by
  obtain ⟨m, rfl⟩ : ∃ m, j = i + m := ⟨j - i, by omega⟩
  obtain ⟨n, rfl⟩ : ∃ n, k = i + m + n := ⟨k - (i + m), by omega⟩
  rw [Nat.add_sub_cancel_left, Nat.add_sub_cancel_left, show i + m + n - i = m + n by omega,
    List.take_add, List.drop_drop]

/-- The index behind the sign. -/
theorem sign_eq (hi : i ≤ s.length) :
    ∃ j, (if (s.drop i).head?.any (· = 45) then i + 1 else i) = j ∧
    i ≤ j ∧ j ≤ s.length ∧ parseSign (s.drop i) = ((s.drop i).take (j - i), s.drop j) := by
  cases h : s.drop i with
  | nil => exact ⟨i, rfl, le_rfl, hi, by rw [h, Nat.sub_self]; rfl⟩
  | cons c t =>
    obtain ⟨hlt, -, ht⟩ := charAt_of_drop h
    rw [parseSign]
    by_cases hc : c = 45
    · refine ⟨i + 1, by simp [hc], by omega, by omega, ?_⟩
      rw [if_pos hc, ht, Nat.add_sub_cancel_left]
      rfl
    · refine ⟨i, by simp [hc], le_rfl, hi, ?_⟩
      rw [if_neg hc, h, Nat.sub_self]
      rfl

theorem parseNumber_agree (hi : i ≤ s.length) :
    Agree s i (Scan.parseNumber s i) (parseNumber (s.drop i)) := by
  obtain ⟨i₁, hsign, hi₁, hle₁, hparse⟩ := sign_eq hi
  obtain ⟨i₂, hscan, hi₂, hle₂, hdrop₂, hint⟩ := scan_eq isDigit hle₁
  have hraw : (s.drop i).take (i₂ - i) =
      (s.drop i).take (i₁ - i) ++ (s.drop i₁).takeWhile isDigit := by
    rw [slice_append hi₁ hi₂, hint]
  -- no digit passed is no move
  have hmove : ∀ {a b : Nat}, a ≤ b → b ≤ s.length →
      (b = a ↔ (s.drop a).take (b - a) = []) := by
    intro a b hab hb
    constructor
    · rintro rfl
      rw [Nat.sub_self, List.take_zero]
    · intro hnil
      have hlen := congrArg List.length hnil
      rw [List.length_take, List.length_drop, List.length_nil] at hlen
      omega
  have hnone := hmove hi₂ hle₂
  rw [hint] at hnone
  rw [Scan.parseNumber, parseNumber, peek_eq, hparse]
  simp only [bind, Except.bind, hsign, hscan]
  by_cases hempty : (s.drop i₁).takeWhile isDigit = []
  · rw [if_pos (hnone.mpr hempty), if_pos hempty]
    exact .none
  rw [if_neg (mt hnone.mp hempty), if_neg hempty, peek_eq, ← hdrop₂, hraw]
  have hne : i₂ ≠ i₁ := mt hnone.mp hempty
  have hstop := Agree.some (s := s) (i := i)
    ((s.drop i).take (i₁ - i) ++ (s.drop i₁).takeWhile isDigit) i₂ (by omega) hle₂
  cases h : s.drop i₂ with
  | nil =>
    rw [h] at hstop
    exact hstop
  | cons c t =>
    obtain ⟨hlt, -, ht⟩ := charAt_of_drop h
    by_cases hc : c = 46
    · obtain ⟨i₃, hscan₃, hi₃, hle₃, hdrop₃, hfrac⟩ := scan_eq isDigit (s := s) (i := i₂ + 1)
        (by omega)
      have hnone₃ := hmove hi₃ hle₃
      rw [hfrac, ht] at hnone₃
      rw [ht] at hdrop₃ hfrac
      simp only [List.head?_cons, Option.any_some, hc, decide_true, if_true, hscan₃]
      by_cases hfe : t.takeWhile isDigit = []
      · rw [if_pos (hnone₃.mpr hfe), if_pos hfe]
        exact .none
      · have hcopy : (s.drop i).take (i₃ - i) = (s.drop i).take (i₁ - i) ++
            (s.drop i₁).takeWhile isDigit ++ 46 :: t.takeWhile isDigit := by
          rw [slice_append (show i ≤ i₂ by omega) (show i₂ ≤ i₃ by omega), hraw, h, hc,
            show i₃ - i₂ = i₃ - (i₂ + 1) + 1 by omega, List.take_succ_cons, ← hfrac]
        rw [if_neg (mt hnone₃.mp hfe), if_neg hfe, ← hdrop₃, hcopy]
        exact .some _ i₃ (by omega) hle₃
    · simp only [List.head?_cons, Option.any_some, hc, decide_false, if_false, Bool.false_eq_true]
      rw [h] at hstop
      exact hstop

theorem parseValue_agree (hi : i < s.length) :
    Agree s i (Scan.parseValue s i) (parseValue (s.drop i)) := by
  cases h : s.drop i with
  | nil => exact absurd (length_le_of_drop h) (Nat.not_le.mpr hi)
  | cons c t =>
    obtain ⟨-, hc, -⟩ := charAt_of_drop h
    rw [Scan.parseValue, parseValue, hc]
    simp only [bind, Except.bind]
    by_cases hquote : c = 34
    · have hstring := parseString_agree s i
      rw [h, parseString, if_pos hquote] at hstring
      rw [if_pos hquote, if_pos hquote]
      generalize Scan.parseString s i = r at hstring
      generalize stringBody t = x at hstring
      cases hstring with
      | none => exact .none
      | some a j hij hj => exact .some _ j hij hj
    · have hnumber := parseNumber_agree (s := s) (i := i) (by omega)
      rw [h] at hnumber
      rw [if_neg hquote, if_neg hquote]
      generalize Scan.parseNumber s i = r at hnumber
      generalize parseNumber (c :: t) = x at hnumber
      cases hnumber with
      | none => exact .none
      | some a j hij hj => exact .some _ j hij hj

theorem skipWs_skipWs (s : Bytes) : skipWs (skipWs s) = skipWs s := by
  cases h : skipWs s with
  | nil => rfl
  | cons c t =>
    have hnot := List.head?_dropWhile_not isWs s
    rw [← skipWs, h] at hnot
    exact List.dropWhile_cons_of_neg (by simpa using hnot)

/-- A round reads a quote at least, so there is fuel for all of them on both sides. -/
theorem membersLoop_agree (fuel fuel' : Nat) (out : JsonObject) (hi : i ≤ s.length)
    (hfuel : s.length - i < fuel) (hfuel' : s.length - i < fuel') :
    Agree s i (Scan.membersLoop s fuel out i) (parseMembers fuel' out (s.drop i)) := by
  induction fuel generalizing i fuel' out with
  | zero => omega
  | succ fuel ih =>
    obtain ⟨fuel', rfl⟩ : ∃ n, fuel' = n + 1 := ⟨fuel' - 1, by omega⟩
    obtain ⟨i₁, h₁, hi₁, hle₁, hdrop₁⟩ := skipWs_eq hi
    have hstring := parseString_agree s i₁
    rw [hdrop₁] at hstring
    rw [Scan.membersLoop, parseMembers, h₁]
    simp only [bind, Except.bind]
    generalize Scan.parseString s i₁ = r at hstring
    generalize parseString (skipWs (s.drop i)) = x at hstring
    cases hstring with
    | none => exact .none
    | some key i₂ hi₂ hle₂ =>
      obtain ⟨i₃, h₃, hi₃, hle₃, hdrop₃⟩ := skipWs_eq hle₂
      simp only [h₃, peek_eq, ← hdrop₃, Option.bind]
      cases hcolon : s.drop i₃ with
      | nil => exact .none
      | cons c t =>
        obtain ⟨hlt₃, -, ht⟩ := charAt_of_drop hcolon
        by_cases hc : c = 58
        · obtain ⟨i₄, h₄, hi₄, hle₄, hdrop₄⟩ := skipWs_eq (s := s) (i := i₃ + 1) (by omega)
          rw [ht] at hdrop₄
          simp only [List.head?_cons, Option.any_some, hc, decide_true, Bool.not_true,
            Bool.false_eq_true, if_false, h₄, ne_eq, not_true_eq_false, ← hdrop₄]
          by_cases hend : i₄ ≥ s.length
          · rw [if_pos hend, List.drop_eq_nil_of_le hend]
            exact .none
          · have hvalue := parseValue_agree (s := s) (i := i₄) (by omega)
            rw [if_neg hend]
            generalize Scan.parseValue s i₄ = r at hvalue
            generalize parseValue (s.drop i₄) = x at hvalue
            cases hvalue with
            | none => exact .none
            | some v i₅ hi₅ hle₅ =>
              obtain ⟨i₆, h₆, hi₆, hle₆, hdrop₆⟩ := skipWs_eq hle₅
              simp only [h₆, ← hdrop₆]
              cases hsep : s.drop i₆ with
              | nil =>
                rw [if_pos (length_le_of_drop hsep)]
                exact .none
              | cons d u =>
                obtain ⟨hlt₆, hd, hu⟩ := charAt_of_drop hsep
                rw [if_neg (Nat.not_le.mpr hlt₆), hd]
                dsimp only
                by_cases hcomma : d = 44
                · rw [if_pos hcomma, if_pos hcomma, ← hu]
                  exact (ih _ _ (by omega) (by omega) (by omega)).weaken (by omega)
                · rw [if_neg hcomma, if_neg hcomma]
                  by_cases hbrace : d = 125
                  · rw [if_pos hbrace, if_pos hbrace, ← hu]
                    exact .some _ (i₆ + 1) (by omega) (by omega)
                  · rw [if_neg hbrace, if_neg hbrace]
                    exact .none
        · simp only [List.head?_cons, Option.any_some, hc, decide_false, Bool.not_false, if_true,
            ne_eq, not_false_eq_true]
          exact .none

end Index

theorem parseMembers_skipWs (fuel : Nat) (obj : JsonObject) (s : Bytes) :
    parseMembers fuel obj (skipWs s) = parseMembers fuel obj s := by
  cases fuel with
  | zero => rfl
  | succ fuel => rw [parseMembers, parseMembers, skipWs_skipWs]

/-- Behind the closing brace nothing but white space is left. -/
theorem skipWs_end {s : Bytes} {k : Nat} (obj : JsonObject) (hk : k ≤ s.length) :
    ∃ j, Scan.skipWs s k = .ok j ∧ (if j ≥ s.length then some obj else none) =
      if skipWs (s.drop k) = [] then some obj else none := by
  obtain ⟨j, hj, -, -, hdrop⟩ := skipWs_eq hk
  refine ⟨j, hj, ?_⟩
  rw [← hdrop]
  by_cases hend : j ≥ s.length
  · rw [if_pos hend, if_pos (List.drop_eq_nil_of_le hend)]
  · rw [if_neg hend, if_neg (mt length_le_of_drop hend)]

/-- On every string the parser stops, reads no byte behind the end, and returns what the parser on
suffixes returns. -/
theorem parseFlatObject_scan (s : Bytes) : Scan.parseFlatObject s = .ok (parseFlatObject s) := by
  obtain ⟨i₁, h₁, -, hle₁, hdrop₁⟩ := skipWs_eq (s := s) (i := 0) (Nat.zero_le _)
  rw [List.drop_zero] at hdrop₁
  rw [Scan.parseFlatObject, parseFlatObject, h₁, ← hdrop₁]
  simp only [bind, Except.bind, peek_eq]
  cases hopen : s.drop i₁ with
  | nil => rfl
  | cons c t =>
    obtain ⟨hlt₁, -, ht⟩ := charAt_of_drop hopen
    by_cases hc : c = 123
    · obtain ⟨i₂, h₂, hi₂, hle₂, hdrop₂⟩ := skipWs_eq (s := s) (i := i₁ + 1) (by omega)
      rw [ht] at hdrop₂
      simp only [List.head?_cons, Option.any_some, hc, decide_true, Bool.not_true,
        Bool.false_eq_true, if_false, h₂, ne_eq, not_true_eq_false, ← hdrop₂]
      have hmembers := membersLoop_agree (s := s) (i := i₂) (s.length + 1)
        (t.length + 1) ∅ hle₂ (by omega) (by
          rw [← ht, List.length_drop]
          omega)
      rw [hdrop₂, parseMembers_skipWs] at hmembers
      by_cases hbrace : (s.drop i₂).head? = some 125
      · obtain ⟨u, hu⟩ : ∃ u, s.drop i₂ = 125 :: u := by
          cases hx : s.drop i₂ with
          | nil => rw [hx] at hbrace; cases hbrace
          | cons d u =>
            rw [hx] at hbrace
            cases hbrace
            exact ⟨u, rfl⟩
        obtain ⟨hlt₂, -, hu'⟩ := charAt_of_drop hu
        obtain ⟨j, hj, heq⟩ := skipWs_end ∅ (show i₂ + 1 ≤ s.length by omega)
        rw [hu'] at heq
        simp only [hu, List.head?_cons, Option.any_some, decide_true, if_true, hj, heq]
        rfl
      · have hpeek : (s.drop i₂).head?.any (· = 125) = false := by
          cases hx : (s.drop i₂).head? with
          | none => rfl
          | some d =>
            rw [hx] at hbrace
            simpa using hbrace
        refine Eq.trans (b := Except.ok ((parseMembers (t.length + 1) ∅ t).bind fun x =>
          if skipWs x.2 = [] then some x.1 else none)) ?_ ?_
        · rw [hpeek]
          generalize Scan.membersLoop s (s.length + 1) ∅ i₂ = r at hmembers
          generalize parseMembers (t.length + 1) ∅ t = x at hmembers
          cases hmembers with
          | none => rfl
          | some obj k hk hk' =>
            obtain ⟨j, hj, heq⟩ := skipWs_end obj hk'
            simp only [Bool.false_eq_true, if_false, hj, heq, Option.bind]
            rfl
        · cases hx : s.drop i₂ with
          | nil =>
            rw [hx] at hdrop₂
            rw [← parseMembers_skipWs, ← hdrop₂]
            rfl
          | cons d u =>
            rw [hx] at hbrace
            exact congrArg Except.ok (if_neg fun hd => hbrace (by rw [hd]; rfl)).symm
    · simp only [List.head?_cons, Option.any_some, hc, decide_false, Bool.not_false, if_true,
        ne_eq, not_false_eq_true]
      rfl

end MarketMakerOps.Exchange
