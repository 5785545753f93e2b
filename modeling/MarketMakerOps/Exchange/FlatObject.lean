import MarketMakerOps.Exchange.Scan

/-!
The grammar of the requests the venue reads, apart from its parser.

* `Chars`, `Quoted`, `ValueText`, `MemberText`, `MembersText`, `ObjectText`: the
  texts of each part and what they stand for, by concatenation;
* `parseMembers_sound`, `parseMembers_complete`: the parser reads these and nothing else;
* `flat_object_grammar`: so does `parseFlatObject`, and keeps the last member of each key.
-/

namespace MarketMakerOps.Exchange

open Decimal

/-! ## The grammar -/

def White (w : Bytes) : Prop := ∀ c ∈ w, isWs c = true

/-- The bytes behind a backslash, each with what it stands for. -/
def escapes : List (UInt8 × UInt8) := [(34, 34), (92, 92), (47, 47), (110, 10), (116, 9), (114, 13)]

/-- What stands between two quotes, and what it decodes to. -/
inductive Chars : Bytes → Bytes → Prop
  | nil : Chars [] []
  | escape {e d : UInt8} {text out : Bytes} (he : (e, d) ∈ escapes) (rest : Chars text out) :
      Chars (92 :: e :: text) (d :: out)
  | plain {c : UInt8} {text out : Bytes} (hquote : c ≠ 34) (hback : c ≠ 92)
      (rest : Chars text out) : Chars (c :: text) (c :: out)

/-- A quoted string. -/
inductive Quoted : Bytes → Bytes → Prop
  | mk {body out : Bytes} (chars : Chars body out) : Quoted (34 :: (body ++ [34])) out

inductive ValueText : Bytes → JsonValue → Prop
  | str {text out : Bytes} (quoted : Quoted text out) : ValueText text (.str out)
  | num (t : NumberToken) : ValueText t.bytes (.num t.bytes)

/-- A key, a colon, a value, with white space around the colon. -/
inductive MemberText : Bytes → Bytes × JsonValue → Prop
  | mk {key k value w₁ w₂ : Bytes} {v : JsonValue} (quoted : Quoted key k) (before : White w₁)
      (after : White w₂) (valueText : ValueText value v) :
      MemberText (key ++ w₁ ++ 58 :: (w₂ ++ value)) (k, v)

/-- One or more members, a comma between them, white space around each. -/
inductive MembersText : Bytes → List (Bytes × JsonValue) → Prop
  | one {w₁ text w₂ : Bytes} {m : Bytes × JsonValue} (before : White w₁)
      (member : MemberText text m)
      (after : White w₂) : MembersText (w₁ ++ text ++ w₂) [m]
  | more {w₁ text w₂ rest : Bytes} {m : Bytes × JsonValue} {ms : List (Bytes × JsonValue)}
      (before : White w₁) (member : MemberText text m) (after : White w₂)
      (others : MembersText rest ms) : MembersText (w₁ ++ text ++ w₂ ++ 44 :: rest) (m :: ms)

/-- A whole text: white space, braces around nothing or some members, white space. -/
inductive ObjectText : Bytes → List (Bytes × JsonValue) → Prop
  | empty {w₁ w₂ w₃ : Bytes} (before : White w₁) (inside : White w₂) (after : White w₃) :
      ObjectText (w₁ ++ 123 :: (w₂ ++ 125 :: w₃)) []
  | members {w₁ text w₂ : Bytes} {ms : List (Bytes × JsonValue)} (before : White w₁)
      (members : MembersText text ms) (after : White w₂) :
      ObjectText (w₁ ++ 123 :: (text ++ 125 :: w₂)) ms

/-- The value of the last member with a key. -/
def lastMember (ms : List (Bytes × JsonValue)) (key : Bytes) : Option JsonValue :=
  (ms.filter fun m => m.1 = key).getLast?.map Prod.snd

/-! ## White space, strings and values -/

section Tokens

variable {s rest out : Bytes}

theorem skipWs_white {w : Bytes} (h : White w) (s : Bytes) : skipWs (w ++ s) = skipWs s := by
  induction w with
  | nil => rfl
  | cons c w ih =>
    obtain ⟨hc, hw⟩ := List.forall_mem_cons.mp h
    rw [List.cons_append, skipWs, List.dropWhile_cons_of_pos hc]
    exact ih hw

/-- A byte that is not white space ends it. -/
theorem skipWs_stop {w : Bytes} (h : White w) {c : UInt8} (hc : isWs c = false) (s : Bytes) :
    skipWs (w ++ c :: s) = c :: s := by
  rw [skipWs_white h, skipWs, List.dropWhile_cons_of_neg (by simp [hc])]

theorem skipWs_split (s : Bytes) : ∃ w, White w ∧ s = w ++ skipWs s :=
  ⟨s.takeWhile isWs, fun _ hc => List.mem_takeWhile_imp hc,
    List.takeWhile_append_dropWhile.symm⟩

theorem unescape_eq_some {e d : UInt8} : unescape e = some d ↔ (e, d) ∈ escapes := by
  unfold unescape escapes
  constructor
  · intro h
    split at h
    · next he =>
      cases h
      rcases he with rfl | rfl | rfl <;> decide
    · split at h
      · next he => cases h; subst he; decide
      · split at h
        · next he => cases h; subst he; decide
        · split at h
          · next he => cases h; subst he; decide
          · cases h
  · intro h
    simp only [List.mem_cons, Prod.mk.injEq, List.not_mem_nil, or_false] at h
    rcases h with ⟨rfl, rfl⟩ | ⟨rfl, rfl⟩ | ⟨rfl, rfl⟩ | ⟨rfl, rfl⟩ | ⟨rfl, rfl⟩ | ⟨rfl, rfl⟩
    all_goals rfl

theorem stringBody_complete {body : Bytes} (h : Chars body out) (rest : Bytes) :
    stringBody (body ++ 34 :: rest) = some (out, rest) := by
  induction h with
  | nil =>
    rw [List.nil_append, stringBody.eq_def]
    rfl
  | escape he _ ih =>
    rw [List.cons_append, List.cons_append, stringBody.eq_def]
    simp only [unescape_eq_some.mpr he, ih]
    rfl
  | plain hquote hback _ ih =>
    rw [List.cons_append, stringBody.eq_def]
    simp only [hquote, hback, if_false, ih]
    rfl

/-- What is read up to the closing quote. -/
theorem stringBody_sound (s : Bytes) : ∀ {out rest : Bytes}, stringBody s = some (out, rest) →
    ∃ body, s = body ++ 34 :: rest ∧ Chars body out := by
  induction hn : s.length using Nat.strong_induction_on generalizing s with
  | _ n ih =>
    intro out rest h
    rw [stringBody.eq_def] at h
    cases s with
    | nil => cases h
    | cons c t =>
      rw [List.length_cons] at hn
      dsimp only at h
      split at h
      · next hquote =>
        cases h
        exact ⟨[], by rw [hquote]; rfl, .nil⟩
      · next hquote =>
        split at h
        · next hback =>
          cases t with
          | nil => cases h
          | cons e u =>
            rw [List.length_cons] at hn
            obtain ⟨d, hd, h⟩ := Option.bind_eq_some_iff.mp h
            obtain ⟨⟨out', rest'⟩, hbody, h⟩ := Option.bind_eq_some_iff.mp h
            cases h
            obtain ⟨body, hu, hchars⟩ := ih u.length (by omega) u rfl hbody
            exact ⟨92 :: e :: body, by rw [hu, hback]; rfl, .escape (unescape_eq_some.mp hd) hchars⟩
        · next hback =>
          obtain ⟨⟨out', rest'⟩, hbody, h⟩ := Option.bind_eq_some_iff.mp h
          cases h
          obtain ⟨body, ht, hchars⟩ := ih t.length (by omega) t rfl hbody
          exact ⟨c :: body, by rw [ht]; rfl, .plain hquote hback hchars⟩

theorem parseString_complete {text : Bytes} (h : Quoted text out) (rest : Bytes) :
    parseString (text ++ rest) = some (out, rest) := by
  obtain ⟨chars⟩ := h
  rw [List.cons_append, List.append_assoc, parseString, if_pos rfl]
  exact stringBody_complete chars rest

theorem parseString_sound (h : parseString s = some (out, rest)) :
    ∃ text, s = text ++ rest ∧ Quoted text out := by
  cases s with
  | nil => cases h
  | cons c t =>
    rw [parseString] at h
    split at h
    · next hquote =>
      obtain ⟨body, ht, hchars⟩ := stringBody_sound t h
      refine ⟨34 :: (body ++ [34]), ?_, .mk hchars⟩
      rw [ht, hquote, List.cons_append, List.append_assoc]
      rfl
    · cases h

/-- What may follow a value: white space, a comma, a closing brace. -/
def ValueEnd (s : Bytes) : Prop := ∃ c t, s = c :: t ∧ (isWs c = true ∨ c = 44 ∨ c = 125)

theorem ValueEnd.tokenEnd (h : ValueEnd s) : TokenEnd s := by
  obtain ⟨c, t, rfl, hc⟩ := h
  intro d hd
  cases hd
  rcases hc with hc | rfl | rfl
  · simp only [isWs, decide_eq_true_eq] at hc
    rcases hc with rfl | rfl | rfl | rfl <;> decide
  · decide
  · decide

theorem parseValue_complete {text : Bytes} {v : JsonValue} (h : ValueText text v)
    (hrest : ValueEnd rest) : parseValue (text ++ rest) = some (v, rest) := by
  cases h with
  | str quoted =>
    obtain ⟨chars⟩ := quoted
    rw [List.cons_append, List.append_assoc, parseValue, if_pos rfl]
    have hbody := stringBody_complete chars rest
    rw [List.singleton_append, hbody]
    rfl
  | num t =>
    have hnumber := parseNumber_bytes t hrest.tokenEnd
    cases hs : t.bytes ++ rest with
    | nil =>
      obtain ⟨c, u, rfl, -⟩ := hrest
      exact absurd hs (by simp)
    | cons c u =>
      have hquote : c ≠ 34 := by
        rintro rfl
        rw [hs, parseNumber] at hnumber
        cases hnumber
      rw [hs] at hnumber
      rw [parseValue, if_neg hquote, hnumber]
      rfl

theorem parseValue_sound {v : JsonValue} (h : parseValue s = some (v, rest)) :
    ∃ text, s = text ++ rest ∧ ValueText text v := by
  cases s with
  | nil => cases h
  | cons c t =>
    rw [parseValue] at h
    split at h
    · next hquote =>
      obtain ⟨⟨out, rest'⟩, hbody, h⟩ := Option.bind_eq_some_iff.mp h
      cases h
      have hstring : parseString (c :: t) = some (out, rest) := by
        rw [parseString, if_pos hquote]
        exact hbody
      obtain ⟨text, htext, hquoted⟩ := parseString_sound hstring
      exact ⟨text, htext, .str hquoted⟩
    · obtain ⟨⟨raw, rest'⟩, hnumber, h⟩ := Option.bind_eq_some_iff.mp h
      cases h
      obtain ⟨hs, -, token, rfl⟩ := parseNumber_eq_some hnumber
      exact ⟨token.bytes, hs, .num token⟩

end Tokens

/-! ## Members -/

section Members

variable {s rest text w : Bytes} {obj : JsonObject} {ms : List (Bytes × JsonValue)}

theorem isWs_of_isDigit {c : UInt8} (h : isDigit c = true) : isWs c = false := by
  simp only [isDigit, decide_eq_true_eq, UInt8.le_iff_toNat_le] at h
  simp only [isWs, decide_eq_false_iff_not, ← UInt8.toNat_inj]
  have h48 : (48 : UInt8).toNat = 48 := rfl
  have h32 : (32 : UInt8).toNat = 32 := rfl
  have h9 : (9 : UInt8).toNat = 9 := rfl
  have h13 : (13 : UInt8).toNat = 13 := rfl
  have h10 : (10 : UInt8).toNat = 10 := rfl
  omega

theorem ValueText.cons {v : JsonValue} (h : ValueText text v) :
    ∃ c t, text = c :: t ∧ isWs c = false := by
  cases h with
  | str quoted =>
    obtain ⟨chars⟩ := quoted
    exact ⟨34, _, rfl, rfl⟩
  | num t =>
    obtain ⟨d, u, hu, hd⟩ := t.body_cons
    rw [NumberToken.bytes, hu]
    cases t.negative with
    | true => exact ⟨45, _, rfl, rfl⟩
    | false => exact ⟨d, u, rfl, isWs_of_isDigit hd⟩

theorem skipWs_value {v : JsonValue} (hw : White w) (h : ValueText text v) (rest : Bytes) :
    skipWs (w ++ text ++ rest) = text ++ rest := by
  obtain ⟨c, t, rfl, hc⟩ := h.cons
  rw [List.append_assoc, List.cons_append, skipWs_stop hw hc]

theorem valueEnd_append (hw : White w) {c : UInt8} (hc : c = 44 ∨ c = 125) (rest : Bytes) :
    ValueEnd (w ++ c :: rest) := by
  cases w with
  | nil => exact ⟨c, rest, rfl, Or.inr hc⟩
  | cons d w => exact ⟨d, _, rfl, Or.inl (hw d List.mem_cons_self)⟩

/-- Entering the members, the later ones last. -/
def enter (obj : JsonObject) (ms : List (Bytes × JsonValue)) : JsonObject :=
  ms.foldl (fun obj m => obj.insert m.1 m.2) obj

/-- One round reads one member and the separator behind it. -/
theorem parseMembers_round {m : Bytes × JsonValue} (fuel : Nat) (hw : White w)
    (hm : MemberText text m) {w₂ : Bytes} (hw₂ : White w₂) {c : UInt8} (hc : c = 44 ∨ c = 125) :
    parseMembers (fuel + 1) obj (w ++ text ++ w₂ ++ c :: rest) =
      if c = 44 then parseMembers fuel (obj.insert m.1 m.2) rest
      else some (obj.insert m.1 m.2, rest) := by
  obtain ⟨quoted, before, after, valueText⟩ := hm
  next key k value w₃ w₄ v =>
    have hkey : skipWs (w ++ (key ++ w₃ ++ 58 :: (w₄ ++ value)) ++ w₂ ++ c :: rest) =
        key ++ (w₃ ++ 58 :: (w₄ ++ value ++ (w₂ ++ c :: rest))) := by
      obtain ⟨chars⟩ := quoted
      simp only [List.append_assoc, List.cons_append]
      exact skipWs_stop hw rfl _
    have hsep : isWs c = false := by rcases hc with rfl | rfl <;> rfl
    rw [parseMembers, hkey, parseString_complete quoted]
    simp only [Option.bind_eq_bind, Option.bind_some,
      skipWs_stop before (show isWs 58 = false from rfl), ne_eq, not_true_eq_false, if_false,
      skipWs_value after valueText,
      parseValue_complete valueText (valueEnd_append hw₂ hc rest), skipWs_stop hw₂ hsep]
    rcases hc with rfl | rfl <;> rfl

theorem parseMembers_complete (h : MembersText text ms) {fuel : Nat} (hfuel : ms.length ≤ fuel)
    (rest : Bytes) : parseMembers fuel obj (text ++ 125 :: rest) = some (enter obj ms, rest) := by
  induction h generalizing obj fuel with
  | one before member after =>
    obtain ⟨n, rfl⟩ : ∃ n, fuel = n + 1 := ⟨fuel - 1, by simp at hfuel; omega⟩
    rw [parseMembers_round n before member after (Or.inr rfl)]
    rfl
  | more before member after _ ih =>
    obtain ⟨n, rfl⟩ : ∃ n, fuel = n + 1 := ⟨fuel - 1, by simp at hfuel; omega⟩
    rw [List.append_assoc, List.cons_append, parseMembers_round n before member after (Or.inl rfl),
      if_pos rfl]
    exact ih (by simpa using hfuel)

theorem parseMembers_sound {fuel : Nat} {obj' : JsonObject}
    (h : parseMembers fuel obj s = some (obj', rest)) :
    ∃ text ms, s = text ++ 125 :: rest ∧ MembersText text ms ∧ obj' = enter obj ms := by
  induction fuel generalizing obj s with
  | zero => cases h
  | succ fuel ih =>
    rw [parseMembers] at h
    obtain ⟨⟨key, s₁⟩, hkey, h⟩ := Option.bind_eq_some_iff.mp h
    obtain ⟨w₁, hw₁, hs⟩ := skipWs_split s
    obtain ⟨keyText, hkeyText, hquoted⟩ := parseString_sound hkey
    obtain ⟨w₂, hw₂, hs₁⟩ := skipWs_split s₁
    dsimp only at h
    split at h
    · cases h
    · next c s₂ hcolon =>
      rw [hcolon] at hs₁
      split at h
      · cases h
      · next hc =>
        obtain ⟨⟨v, s₃⟩, hvalue, h⟩ := Option.bind_eq_some_iff.mp h
        obtain ⟨w₃, hw₃, hs₂⟩ := skipWs_split s₂
        obtain ⟨valueText, hvalueText, hv⟩ := parseValue_sound hvalue
        obtain ⟨w₄, hw₄, hs₃⟩ := skipWs_split s₃
        have hmember : MemberText (keyText ++ w₂ ++ 58 :: (w₃ ++ valueText)) (key, v) :=
          .mk hquoted hw₂ hw₃ hv
        have hhead : s = w₁ ++ (keyText ++ w₂ ++ 58 :: (w₃ ++ valueText)) ++ s₃ := by
          rw [hs, hkeyText, hs₁, hs₂, hvalueText, not_not.mp hc]
          simp only [List.append_assoc, List.cons_append]
        dsimp only at h
        split at h
        · cases h
        · next d s₄ hsep =>
          rw [hsep] at hs₃
          split at h
          · next hcomma =>
            obtain ⟨text, ms, hs₄, htext, hobj⟩ := ih h
            refine ⟨_, (key, v) :: ms, ?_, .more hw₁ hmember hw₄ htext, hobj⟩
            rw [hhead, hs₃, hs₄, hcomma]
            simp only [List.append_assoc, List.cons_append]
          · split at h
            · next hbrace =>
              cases h
              refine ⟨_, [(key, v)], ?_, .one hw₁ hmember hw₄, rfl⟩
              rw [hhead, hs₃, hbrace]
              simp only [List.append_assoc]
            · cases h

/-- There is a byte or more for each member. -/
theorem MembersText.length_le (h : MembersText text ms) : ms.length ≤ text.length := by
  induction h with
  | one before member after =>
    obtain ⟨-, -, -, -⟩ := member
    simp only [List.length_append, List.length_cons, List.length_nil]
    omega
  | more before member after _ ih =>
    simp only [List.length_append, List.length_cons]
    omega

theorem lookup_enter (obj : JsonObject) (ms : List (Bytes × JsonValue)) (key : Bytes) :
    (enter obj ms).lookup key = (lastMember ms key).or (obj.lookup key) := by
  induction ms generalizing obj with
  | nil => rfl
  | cons m ms ih =>
    have hcons : lastMember (m :: ms) key =
        (lastMember ms key).or (if m.1 = key then some m.2 else none) := by
      unfold lastMember
      by_cases hm : m.1 = key
      · rw [List.filter_cons_of_pos (by simpa using hm), List.getLast?_cons, if_pos hm]
        cases (ms.filter fun m => m.1 = key).getLast? <;> rfl
      · rw [List.filter_cons_of_neg (by simpa using hm), if_neg hm, Option.or_none]
    rw [enter, List.foldl_cons, ← enter, ih, hcons, Option.or_assoc]
    refine congrArg _ ?_
    by_cases hm : m.1 = key
    · rw [if_pos hm, ← hm, AList.lookup_insert]
      rfl
    · rw [if_neg hm, AList.lookup_insert_ne (Ne.symm hm)]
      rfl

end Members

/-! ## Objects -/

section Objects

variable {s : Bytes} {ms : List (Bytes × JsonValue)}

theorem skipWs_eq_nil {w : Bytes} : skipWs w = [] ↔ White w := List.dropWhile_eq_nil_iff

/-- Some members begin with a byte that is neither white space nor
a brace, behind the white space. -/
theorem skipWs_members {text : Bytes} (h : MembersText text ms) (rest : Bytes) :
    ∃ t, skipWs (text ++ rest) = 34 :: t := by
  have hmember : ∀ {w text : Bytes} {m : Bytes × JsonValue}, White w → MemberText text m →
      ∀ rest, ∃ t, skipWs (w ++ text ++ rest) = 34 :: t := by
    intro w text m hw hm rest
    obtain ⟨quoted, -, -, -⟩ := hm
    obtain ⟨chars⟩ := quoted
    rw [List.append_assoc, List.append_assoc, List.cons_append]
    exact ⟨_, skipWs_stop hw rfl _⟩
  cases h with
  | one before member after =>
    rw [List.append_assoc]
    exact hmember before member _
  | more before member after others =>
    rw [List.append_assoc, List.append_assoc]
    exact hmember before member _

theorem parseFlatObject_complete (h : ObjectText s ms) :
    parseFlatObject s = some (enter ∅ ms) := by
  cases h with
  | empty before inside after =>
    rw [parseFlatObject, skipWs_stop before rfl]
    simp only [ne_eq, not_true_eq_false, if_false,
      skipWs_stop inside (show isWs 125 = false from rfl), if_true, skipWs_eq_nil.mpr after]
    rfl
  | @members w₁ text w₂ _ before members after =>
    obtain ⟨t, ht⟩ := skipWs_members members (125 :: w₂)
    have hfuel : ms.length ≤ (text ++ 125 :: w₂).length + 1 := by
      have := members.length_le
      rw [List.length_append]
      omega
    rw [parseFlatObject, skipWs_stop before rfl]
    simp only [ne_eq, not_true_eq_false, if_false, ht, parseMembers_complete members hfuel w₂,
      Option.bind_eq_bind, Option.bind_some, skipWs_eq_nil.mpr after, if_true]
    rfl

theorem parseFlatObject_sound {obj : JsonObject} (h : parseFlatObject s = some obj) :
    ∃ ms, ObjectText s ms ∧ obj = enter ∅ ms := by
  obtain ⟨w₁, hw₁, hs⟩ := skipWs_split s
  rw [parseFlatObject] at h
  split at h
  · cases h
  · next c s₁ hopen =>
    rw [hopen] at hs
    split at h
    · cases h
    · next hc =>
      rw [not_not.mp hc] at hs
      obtain ⟨w₂, hw₂, hs₁⟩ := skipWs_split s₁
      split at h
      · cases h
      · next d t hnext =>
        rw [hnext] at hs₁
        split at h
        · next hbrace =>
          split at h
          · next hend =>
            cases h
            refine ⟨[], ?_, rfl⟩
            rw [hs, hs₁, hbrace]
            exact .empty hw₁ hw₂ (skipWs_eq_nil.mp hend)
          · cases h
        · obtain ⟨⟨obj', rest⟩, hmembers, h⟩ := Option.bind_eq_some_iff.mp h
          dsimp only at h
          split at h
          · next hend =>
            cases h
            obtain ⟨text, ms, htext, hms, hobj⟩ := parseMembers_sound hmembers
            refine ⟨ms, ?_, hobj⟩
            rw [hs, htext]
            exact .members hw₁ hms (skipWs_eq_nil.mp hend)
          · cases h

end Objects

/-- For every byte string the parser stops without a read behind the end, accepts exactly the
grammar's texts, and keeps for each key the value of its last member, however the text is
derived. -/
theorem flat_object_grammar (s : Bytes) :
    Scan.parseFlatObject s = .ok (parseFlatObject s) ∧
    ((parseFlatObject s).isSome = true ↔ ∃ ms, ObjectText s ms) ∧
    ∀ obj ms, parseFlatObject s = some obj → ObjectText s ms →
      ∀ key, obj.lookup key = lastMember ms key := by
  refine ⟨parseFlatObject_scan s, ⟨fun h => ?_, ?_⟩, fun obj ms hobj hms key => ?_⟩
  · obtain ⟨obj, hobj⟩ := Option.isSome_iff_exists.mp h
    obtain ⟨ms, hms, -⟩ := parseFlatObject_sound hobj
    exact ⟨ms, hms⟩
  · rintro ⟨ms, hms⟩
    rw [parseFlatObject_complete hms]
    rfl
  · rw [parseFlatObject_complete hms] at hobj
    cases hobj
    rw [lookup_enter, AList.lookup_empty, Option.or_none]

end MarketMakerOps.Exchange
