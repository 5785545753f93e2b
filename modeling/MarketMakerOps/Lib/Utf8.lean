import MarketMakerOps.Lib.Decimal

/-!
# UTF-8

A check of bytes from left to right. Surrogates are let through like other characters of three
bytes.

* `tails`: what a first byte asks of those after it;
* `isUtf8`: whole characters only;
* `isUtf8_append`, `isUtf8_of_ascii`: texts put together;
* `isUtf8_flatMap`: ASCII written another way, the rest left alone.
-/

namespace Utf8

open Decimal

/-- The least and the greatest value of each further byte of a character, by its first byte. No
character has a form longer than it needs, and none lies above `0x10FFFF`. -/
def tails (b : UInt8) : Option (List (UInt8 × UInt8)) :=
  if b < 0x80 then some []
  else if b < 0xC2 then none
  else if b < 0xE0 then some [(0x80, 0xBF)]
  else if b = 0xE0 then some [(0xA0, 0xBF), (0x80, 0xBF)]
  else if b < 0xF0 then some [(0x80, 0xBF), (0x80, 0xBF)]
  else if b = 0xF0 then some [(0x90, 0xBF), (0x80, 0xBF), (0x80, 0xBF)]
  else if b < 0xF4 then some [(0x80, 0xBF), (0x80, 0xBF), (0x80, 0xBF)]
  else if b = 0xF4 then some [(0x80, 0x8F), (0x80, 0xBF), (0x80, 0xBF)]
  else none

/-- The bytes still due of one character, and then whole characters to the end. -/
def check : List (UInt8 × UInt8) → Bytes → Bool
  | [], [] => true
  | [], b :: s =>
    match tails b with
    | some due => check due s
    | none => false
  | _ :: _, [] => false
  | (least, greatest) :: due, b :: s => decide (least ≤ b ∧ b ≤ greatest) && check due s

def isUtf8 (s : Bytes) : Bool := check [] s

variable {s t : Bytes} {due : List (UInt8 × UInt8)}

theorem check_append (h : check due s = true) (ht : isUtf8 t = true) :
    check due (s ++ t) = true := by
  induction s generalizing due with
  | nil =>
    cases due with
    | nil => exact ht
    | cons r due => cases h
  | cons b s ih =>
    cases due with
    | nil =>
      rw [check] at h
      rw [List.cons_append, check]
      cases htails : tails b with
      | none =>
        rw [htails] at h
        cases h
      | some due =>
        rw [htails] at h
        exact ih h
    | cons r due =>
      obtain ⟨hb, hs⟩ := Bool.and_eq_true_iff.mp h
      exact Bool.and_eq_true_iff.mpr ⟨hb, ih hs⟩

theorem isUtf8_append (hs : isUtf8 s = true) (ht : isUtf8 t = true) : isUtf8 (s ++ t) = true :=
  check_append hs ht

theorem tails_of_ascii {b : UInt8} (h : b < 0x80) : tails b = some [] := if_pos h

theorem isUtf8_of_ascii (h : ∀ b ∈ s, b < 0x80) : isUtf8 s = true := by
  induction s with
  | nil => rfl
  | cons b s ih =>
    obtain ⟨hb, hs⟩ := List.forall_mem_cons.mp h
    rw [isUtf8, check, tails_of_ascii hb]
    exact ih hs

/-- No byte due is ASCII. -/
theorem high_of_tails {b : UInt8} (h : tails b = some due) : ∀ r ∈ due, 0x80 ≤ r.1 := by
  have hall : due.all (fun r => decide (0x80 ≤ r.1)) = true := by
    unfold tails at h
    split_ifs at h <;> cases h <;> rfl
  exact fun r hr => of_decide_eq_true (List.all_eq_true.mp hall r hr)

theorem check_flatMap {f : UInt8 → Bytes} (hlow : ∀ b, b < 0x80 → isUtf8 (f b) = true)
    (hhigh : ∀ b, 0x80 ≤ b → f b = [b]) (hdue : ∀ r ∈ due, 0x80 ≤ r.1) (h : check due s = true) :
    check due (s.flatMap f) = true := by
  induction s generalizing due with
  | nil => exact h
  | cons b s ih =>
    rw [List.flatMap_cons]
    cases due with
    | nil =>
      rw [check] at h
      by_cases hb : b < 0x80
      · rw [tails_of_ascii hb] at h
        exact isUtf8_append (hlow b hb) (ih hdue h)
      · rw [hhigh b (UInt8.not_lt.mp hb), List.singleton_append, check]
        cases htails : tails b with
        | none =>
          rw [htails] at h
          cases h
        | some due =>
          rw [htails] at h
          exact ih (high_of_tails htails) h
    | cons r due =>
      obtain ⟨hb, hs⟩ := Bool.and_eq_true_iff.mp h
      obtain ⟨hr, hdue⟩ := List.forall_mem_cons.mp hdue
      -- a byte in the range of one that is due is none of ASCII
      rw [hhigh b (UInt8.le_trans hr (of_decide_eq_true hb).1), List.singleton_append]
      exact Bool.and_eq_true_iff.mpr ⟨hb, ih hdue hs⟩

theorem isUtf8_flatMap {f : UInt8 → Bytes} (hlow : ∀ b, b < 0x80 → isUtf8 (f b) = true)
    (hhigh : ∀ b, 0x80 ≤ b → f b = [b]) (h : isUtf8 s = true) : isUtf8 (s.flatMap f) = true :=
  check_flatMap hlow hhigh (List.forall_mem_nil _) h

/-- The euro sign, a lone surrogate; a byte that begins nothing, an overlong form, a cut sign. -/
example : isUtf8 [0xE2, 0x82, 0xAC] = true ∧ isUtf8 [0xED, 0xA0, 0x80] = true ∧
    isUtf8 [0xFF] = false ∧ isUtf8 [0xC0, 0x80] = false ∧ isUtf8 [0xE2, 0x82] = false := by decide

end Utf8
