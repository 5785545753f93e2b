import MarketMakerOps.Lib.Fallible
import MarketMakerOps.Engine.OrderPool
import MarketMakerOps.Exchange.Protocol
import Mathlib.Data.List.TakeWhile

/-!
The command line of the venue (`venue/main.cpp`), up to the server it builds.

* `strtoull`: what the C standard says of the library function, in base 10;
* `parseU64`, `parseArgs`, `main`: the code;
* `capacity_sized_iff`: when the capacity, the soft cap and the pool agree.

An argument is a string without a NUL, so the end of what `strtoull` has read is
the end of the string when nothing is left.
-/

namespace MarketMakerOps.Exchange

open Decimal Engine

/-! ## Numbers on the command line -/

/-- Space, tab, line feed, vertical tab, form feed, carriage return. -/
def isSpace (c : UInt8) : Bool := c = 32 ∨ (9 ≤ c ∧ c ≤ 13)

/-- An optional sign: whether it is a minus, and the rest. -/
def strtoullSign : Bytes → Bool × Bytes
  | [] => (false, [])
  | c :: s => if c = 45 then (true, s) else if c = 43 then (false, s) else (false, c :: s)

/-- The value and the unread suffix: white space, a sign, digits. No digits, nothing read; a number
beyond 64 bits is the largest one, a minus negates modulo `2 ^ 64`. -/
def strtoull (s : Bytes) : UInt64 × Bytes :=
  let (negative, t) := strtoullSign (s.dropWhile isSpace)
  let digits := t.takeWhile isDigit
  if digits = [] then (0, s)
  else
    let n := ofDecimal 0 digits
    let v := if 2 ^ 64 ≤ n then UInt64.ofNat (2 ^ 64 - 1)
      else if negative then -UInt64.ofNat n else UInt64.ofNat n
    (v, t.dropWhile isDigit)

/-- `none` is the null pointer. -/
def parseU64 (s : Option Bytes) : Option UInt64 :=
  match s with
  | none => none
  | some s =>
    if s = [] then none else
    let (v, rest) := strtoull s
    if rest ≠ [] then none else some v

/-! ## The command line -/

structure Settings where
  port : UInt16
  capacity : UInt64
  heartbeatMs : Nat
  deriving DecidableEq, Repr

def Settings.default : Settings := ⟨9200, (1 : UInt64) <<< 20, 1000⟩

structure Flag where
  name : Bytes
  max : UInt64
  set : Settings → UInt64 → Settings

def portFlag : Flag := ⟨ascii "--port", 65535, fun c v => { c with port := v.toUInt16 }⟩

def capacityFlag : Flag :=
  ⟨ascii "--capacity", 0xFFFFFFFFFFFFFFFF, fun c v => { c with capacity := v }⟩

def heartbeatFlag : Flag :=
  ⟨ascii "--heartbeat-ms", 3600000, fun c v => { c with heartbeatMs := v.toNat }⟩

def flag? (arg : Bytes) : Option Flag :=
  if arg = portFlag.name then some portFlag
  else if arg = capacityFlag.name then some capacityFlag
  else if arg = heartbeatFlag.name then some heartbeatFlag
  else none

/-- The value of a flag: from 1 to its maximum. -/
def Flag.value? (f : Flag) (s : Bytes) : Option UInt64 :=
  match parseU64 (some s) with
  | none => none
  | some v => if v = 0 ∨ v > f.max then none else some v

/-- The loop over the arguments; an error is the exit code. -/
def parseArgs : Settings → List Bytes → Except Nat Settings
  | c, [] => .ok c
  | c, arg :: args =>
    match flag? arg with
    | some f =>
      match args with
      | [] => .error 2
      | s :: args =>
        match f.value? s with
        | none => .error 2
        | some v => parseArgs (f.set c v) args
    | none => .error (if arg = ascii "--help" ∨ arg = ascii "-h" then 0 else 2)

/-- The server that is built: `size_t` has 64 bits. -/
structure Server.Arguments where
  port : UInt16
  bookCapacity : UInt64
  softCap : UInt64
  heartbeatMs : Nat
  deriving DecidableEq, Repr

/-- `VENUE_PORT`, read before the arguments. -/
def parseEnv (envPort : Option Bytes) : Except Nat Settings :=
  match envPort with
  | none => .ok .default
  | some s =>
    match portFlag.value? s with
    | none => .error 2
    | some v => .ok (portFlag.set .default v)

/-- The server's arguments, or the exit code. -/
def main (envPort : Option Bytes) (args : List Bytes) : Except Nat Server.Arguments := do
  let c ← parseEnv envPort
  let c ← parseArgs c args
  let softCap := c.capacity
  let bookCapacity := softCap + 64
  pure ⟨c.port, bookCapacity, softCap, c.heartbeatMs⟩

/-! ## What is accepted -/

section Accepted

variable {s : Bytes} {v : UInt64} {c c' : Settings}

/-- An accepted string that begins with a digit is digits to its end. -/
theorem parseU64_of_digit (hd : ∃ c ∈ s.head?, isDigit c = true) (h : parseU64 (some s) = some v) :
    (∀ c ∈ s, isDigit c = true) ∧
      v = UInt64.ofNat (if 2 ^ 64 ≤ ofDecimal 0 s then 2 ^ 64 - 1 else ofDecimal 0 s) := by
  obtain ⟨d, hhead, hd⟩ := hd
  cases s with
  | nil => cases hhead
  | cons e t =>
    cases hhead
    have hspace : isSpace d = false := by
      simp only [isDigit, decide_eq_true_eq, UInt8.le_iff_toNat_le] at hd
      simp only [isSpace, decide_eq_false_iff_not, UInt8.le_iff_toNat_le, ← UInt8.toNat_inj]
      have h48 : (48 : UInt8).toNat = 48 := rfl
      have h13 : (13 : UInt8).toNat = 13 := rfl
      have h32 : (32 : UInt8).toNat = 32 := rfl
      omega
    have h45 : d ≠ 45 := by
      rintro rfl
      cases hd
    have h43 : d ≠ 43 := by
      rintro rfl
      cases hd
    have hskip : (d :: t).dropWhile isSpace = d :: t :=
      List.dropWhile_cons_of_neg (by simp [hspace])
    have hsign : strtoullSign (d :: t) = (false, d :: t) := by
      rw [strtoullSign, if_neg h45, if_neg h43]
    have hdigits : (d :: t).takeWhile isDigit ≠ [] := by
      rw [List.takeWhile_cons_of_pos hd]
      exact List.cons_ne_nil _ _
    rw [parseU64, strtoull, hskip, hsign] at h
    simp only [hdigits, if_false, List.cons_ne_nil, Bool.false_eq_true] at h
    split at h
    · cases h
    · next hrest =>
      have hall := List.dropWhile_eq_nil_iff.mp (not_not.mp hrest)
      have hwhole := List.takeWhile_eq_self_iff.mpr hall
      rw [hwhole] at h
      refine ⟨hall, ?_⟩
      cases h
      split <;> rfl

theorem flag?_eq_some {arg : Bytes} {f : Flag} (h : flag? arg = some f) :
    (f = capacityFlag ∧ arg = capacityFlag.name) ∨ f = portFlag ∨ f = heartbeatFlag := by
  unfold flag? at h
  split at h
  · cases h
    exact Or.inr (Or.inl rfl)
  · split at h
    · next harg =>
      cases h
      exact Or.inl ⟨rfl, harg⟩
    · split at h
      · cases h
        exact Or.inr (Or.inr rfl)
      · cases h

/-- No flag takes another flag's name for its value. -/
theorem value?_capacity (f : Flag) : f.value? capacityFlag.name = none := by
  have hparse : parseU64 (some capacityFlag.name) = none := by decide +kernel
  rw [Flag.value?, hparse]

/-- In an accepted command line the flag stands where a flag is read. -/
theorem parseArgs_before {after : List Bytes} : ∀ {before : List Bytes} {c : Settings},
    parseArgs c (before ++ capacityFlag.name :: after) = .ok c' →
      ∃ c₁, parseArgs c₁ (capacityFlag.name :: after) = .ok c'
  | [], c, h => ⟨c, h⟩
  | [arg], c, h => by
    rw [List.singleton_append, parseArgs] at h
    split at h
    · next f _ =>
      dsimp only at h
      rw [value?_capacity f] at h
      cases h
    · cases h
  | arg :: s :: before, c, h => by
    rw [List.cons_append, List.cons_append, parseArgs] at h
    split at h
    · dsimp only at h
      split at h
      · cases h
      · exact parseArgs_before h
    · cases h

theorem parseArgs_after : ∀ {args : List Bytes} {c : Settings}, capacityFlag.name ∉ args →
    parseArgs c args = .ok c' → c'.capacity = c.capacity
  | [], c, _, h => by
    cases h
    rfl
  | [arg], c, _, h => by
    rw [parseArgs] at h
    split at h <;> cases h
  | arg :: s :: args, c, hno, h => by
    rw [parseArgs] at h
    split at h
    · next f hf =>
      dsimp only at h
      split at h
      · cases h
      · next v _ =>
        have hset : (f.set c v).capacity = c.capacity := by
          rcases flag?_eq_some hf with ⟨-, harg⟩ | rfl | rfl
          · exact (hno (harg ▸ List.mem_cons_self)).elim
          · rfl
          · rfl
        rw [← hset]
        exact parseArgs_after (fun hm => hno (List.mem_cons_of_mem _ (List.mem_cons_of_mem _ hm))) h
    · cases h

/-- The string behind the last `--capacity` sets the soft cap. -/
theorem main_capacity {envPort : Option Bytes} {before after : List Bytes} {a : Server.Arguments}
    (hlast : capacityFlag.name ∉ after)
    (h : main envPort (before ++ capacityFlag.name :: s :: after) = .ok a) :
    parseU64 (some s) = some a.softCap ∧ a.bookCapacity = a.softCap + 64 := by
  rw [main] at h
  obtain ⟨c₀, -, h⟩ := Fallible.bind_eq_ok.mp h
  obtain ⟨c, hc, h⟩ := Fallible.bind_eq_ok.mp h
  cases h
  obtain ⟨c₁, h₁⟩ := parseArgs_before hc
  have hport : capacityFlag.name ≠ portFlag.name := by decide +kernel
  have hflag : flag? capacityFlag.name = some capacityFlag := by
    rw [flag?, if_neg hport, if_pos rfl]
  rw [parseArgs, hflag] at h₁
  dsimp only at h₁
  split at h₁
  · cases h₁
  · next v hv =>
    have hcap : c.capacity = v := parseArgs_after hlast h₁
    rw [Flag.value?] at hv
    split at hv
    · cases hv
    · next w hw =>
      split at hv
      · cases hv
      · cases hv
        exact ⟨by rw [hw, hcap], rfl⟩

end Accepted

/-! ## Sizes -/

/-- The string is a plain numeral, its number is the soft cap, the book has 64 slots more, and the
pool built from it has more slots than the venue admits orders. -/
structure SizedExactly (s : Bytes) (a : Server.Arguments) : Prop where
  numeral : s ≠ [] ∧ ∀ c ∈ s, isDigit c = true
  softCap : a.softCap.toNat = ofDecimal 0 s
  bookCapacity : a.bookCapacity.toNat = a.softCap.toNat + 64
  headroom : ∃ pool : OrderPool a.bookCapacity.toNat,
    OrderPool.new a.bookCapacity.toNat = .ok pool ∧ a.softCap.toNat < pool.freeCount

/-- For an accepted capacity this takes a first byte that is a digit, neither white space nor a
sign, and a number that leaves room for the 64 slots in 64 bits. -/
theorem capacity_sized_iff (envPort : Option Bytes) (before after : List Bytes) (s : Bytes)
    (a : Server.Arguments) (hlast : capacityFlag.name ∉ after)
    (h : main envPort (before ++ capacityFlag.name :: s :: after) = .ok a) :
    SizedExactly s a ↔ (∃ c ∈ s.head?, isDigit c = true) ∧ ofDecimal 0 s < 2 ^ 64 - 64 := by
  obtain ⟨hparse, hbook⟩ := main_capacity hlast h
  have h64 : (64 : UInt64).toNat = 64 := rfl
  constructor
  · rintro ⟨⟨hne, hall⟩, hsoft, hexact, -⟩
    refine ⟨?_, ?_⟩
    · cases s with
      | nil => exact absurd rfl hne
      | cons c s => exact ⟨c, rfl, hall c List.mem_cons_self⟩
    · have hlt := a.bookCapacity.toNat_lt
      omega
  · rintro ⟨hd, hroom⟩
    obtain ⟨hall, hvalue⟩ := parseU64_of_digit hd hparse
    rw [if_neg (by omega)] at hvalue
    have hsoft : a.softCap.toNat = ofDecimal 0 s := by
      rw [hvalue]
      exact UInt64.toNat_ofNat_of_lt' (show ofDecimal 0 s < 2 ^ 64 by omega)
    have hexact : a.bookCapacity.toNat = a.softCap.toNat + 64 := by
      rw [hbook, UInt64.toNat_add, h64]
      omega
    refine ⟨⟨?_, hall⟩, hsoft, hexact, ?_⟩
    · rintro rfl
      obtain ⟨c, hc, -⟩ := hd
      cases hc
    · obtain ⟨pool, hpool, hrep⟩ := OrderPool.new_spec (show 0 < a.bookCapacity.toNat by omega)
      refine ⟨pool, hpool, ?_⟩
      rw [hrep.count, List.length_finRange]
      omega

theorem capacity_sized_five : SizedExactly [53] ⟨9200, 69, 5, 1000⟩ :=
  (capacity_sized_iff none [] [] [53] ⟨9200, 69, 5, 1000⟩ List.not_mem_nil (by decide +kernel)).mpr
    ⟨⟨53, rfl, rfl⟩, by decide⟩

/-- A minus one is the largest capacity, with a pool of 63 slots; a plain numeral 64 below the
word's end has a pool without a slot, which its constructor writes to. -/
theorem capacity_wraps :
    main none [capacityFlag.name, ascii "-1"] = .ok ⟨9200, 63, 18446744073709551615, 1000⟩ ∧
    ¬SizedExactly (ascii "-1") ⟨9200, 63, 18446744073709551615, 1000⟩ ∧
    main none [capacityFlag.name, ascii "18446744073709551552"] =
      .ok ⟨9200, 0, 18446744073709551552, 1000⟩ ∧
    ¬SizedExactly (ascii "18446744073709551552") ⟨9200, 0, 18446744073709551552, 1000⟩ ∧
    ∀ pool : OrderPool 0, OrderPool.new 0 ≠ .ok pool := by
  refine ⟨by decide +kernel, fun h => ?_, by decide +kernel, fun h => ?_, fun pool h => ?_⟩
  · exact absurd h.bookCapacity (by decide)
  · exact absurd h.bookCapacity (by decide)
  · cases h

end MarketMakerOps.Exchange
