import MarketMakerOps.Lib.Splitting
import MarketMakerOps.Exchange.Protocol
import Mathlib.Data.Nat.Bitwise

/-!
Frames on a byte stream (`venue/framing.cpp`): a magic word, the big-endian length
of the payload, the payload.

* `encodeFrame`, `FrameDecoder`: the code;
* `IsFrame`: what a frame is, in terms of numbers;
* `frames`: the splitter `FrameDecoder.next` implements;
* `decoding_is_chunk_free`: the payloads do not depend on how the bytes arrive.
-/

namespace MarketMakerOps.Exchange

open Decimal Splitting

def kFrameMagic : UInt32 := 0x56454E31

def kFrameHeaderBytes : Nat := 8

def kMaxPayloadBytes : UInt32 := (1 : UInt32) <<< 20

/-- The four bytes of a word, most significant first. -/
def wordBytes (w : UInt32) : Bytes :=
  [((w >>> 24) &&& 0xFF).toUInt8, ((w >>> 16) &&& 0xFF).toUInt8, ((w >>> 8) &&& 0xFF).toUInt8,
    (w &&& 0xFF).toUInt8]

def encodeFrame (payload : Bytes) : Bytes :=
  wordBytes kFrameMagic ++ wordBytes (UInt32.ofNat payload.length) ++ payload

/-- A word from four bytes; the cast to `unsigned char` is the identity here. -/
def bytesWord (b₀ b₁ b₂ b₃ : UInt8) : UInt32 :=
  (b₀.toUInt32 <<< 24) ||| (b₁.toUInt32 <<< 16) ||| (b₂.toUInt32 <<< 8) ||| b₃.toUInt32

structure FrameDecoder where
  buf : Bytes
  error : Bool
  deriving DecidableEq, Repr

namespace FrameDecoder

/-- A fresh decoder. -/
def empty : FrameDecoder := ⟨[], false⟩

def feed (d : FrameDecoder) (data : Bytes) : FrameDecoder := { d with buf := d.buf ++ data }

/-- The payload where the source returns true. -/
def next (d : FrameDecoder) : Option Bytes × FrameDecoder :=
  if d.error then (none, d)
  else
    match d.buf with
    | b₀ :: b₁ :: b₂ :: b₃ :: b₄ :: b₅ :: b₆ :: b₇ :: rest =>
      if bytesWord b₀ b₁ b₂ b₃ ≠ kFrameMagic then (none, { d with error := true })
      else
        let len := bytesWord b₄ b₅ b₆ b₇
        if len > kMaxPayloadBytes then (none, { d with error := true })
        else if rest.length < len.toNat then (none, d)
        else (some (rest.take len.toNat), { d with buf := rest.drop len.toNat })
    | _ => (none, d)

/-- `next` until it returns false, at most so often. -/
def drainLoop : Nat → FrameDecoder → List Bytes × FrameDecoder
  | 0, d => ([], d)
  | fuel + 1, d =>
    match d.next with
    | (none, d) => ([], d)
    | (some payload, d) =>
      let (payloads, d) := drainLoop fuel d
      (payload :: payloads, d)

/-- `next` until it returns false: each payload it returns shortens the buffer. -/
def drain (d : FrameDecoder) : List Bytes × FrameDecoder := drainLoop (d.buf.length + 1) d

/-- Feed some chunks, each followed by `next` until it returns false. -/
def feedAll : FrameDecoder → List Bytes → List Bytes × FrameDecoder
  | d, [] => ([], d)
  | d, chunk :: chunks =>
    let (payloads, d) := (d.feed chunk).drain
    let (later, d) := feedAll d chunks
    (payloads ++ later, d)

end FrameDecoder

/-! ## Frames -/

/-- The number some bytes denote, most significant first. -/
def bigEndian (s : Bytes) : Nat := s.foldl (fun n b => 256 * n + b.toNat) 0

/-- The letters "VEN1". -/
def magic : Bytes := [0x56, 0x45, 0x4E, 0x31]

/-- A complete frame and its payload. -/
def IsFrame (payload frame : Bytes) : Prop :=
  ∃ len, frame = magic ++ len ++ payload ∧ len.length = 4 ∧ bigEndian len = payload.length ∧
    payload.length ≤ 2 ^ 20

/-- A header with a wrong magic or an over-long length. -/
def BadHeader (s : Bytes) : Prop :=
  8 ≤ s.length ∧ (s.take 4 ≠ magic ∨ 2 ^ 20 < bigEndian ((s.drop 4).take 4))

instance (s : Bytes) : Decidable (BadHeader s) := inferInstanceAs (Decidable (_ ∧ _))

/-- A stream that is the frames of some payloads, and a rest. -/
def Framed (stream : Bytes) (payloads : List Bytes) (rest : Bytes) : Prop :=
  ∃ frames, List.Forall₂ IsFrame payloads frames ∧ stream = frames.flatten ++ rest

section Words

theorem toNat_bytesWord (b₀ b₁ b₂ b₃ : UInt8) :
    (bytesWord b₀ b₁ b₂ b₃).toNat = bigEndian [b₀, b₁, b₂, b₃] := by
  have h₀ := b₀.toNat_lt
  have h₁ := b₁.toNat_lt
  have h₂ := b₂.toNat_lt
  have h₃ := b₃.toNat_lt
  have hshift : ∀ (b : UInt8) (k : Nat), k ≤ 24 → b.toNat <<< k % 2 ^ 32 = b.toNat <<< k := by
    intro b k hk
    refine Nat.mod_eq_of_lt ?_
    rw [Nat.shiftLeft_eq]
    calc b.toNat * 2 ^ k
        < 2 ^ 8 * 2 ^ k := Nat.mul_lt_mul_of_pos_right b.toNat_lt (Nat.two_pow_pos k)
      _ ≤ 2 ^ 8 * 2 ^ 24 := Nat.mul_le_mul_left _ (Nat.pow_le_pow_right (by decide) hk)
  have hword : (bytesWord b₀ b₁ b₂ b₃).toNat =
      b₀.toNat <<< 24 ||| (b₁.toNat <<< 16 ||| (b₂.toNat <<< 8 ||| b₃.toNat)) := by
    rw [← Nat.or_assoc, ← Nat.or_assoc, ← hshift b₀ 24 (by decide), ← hshift b₁ 16 (by decide),
      ← hshift b₂ 8 (by decide)]
    rfl
  -- the parts have no bit in common, so `|||` adds
  have hor : ∀ {a b k : Nat}, b < 2 ^ k → a <<< k ||| b = a * 2 ^ k + b := by
    intro a b k hb
    rw [← Nat.shiftLeft_add_eq_or_of_lt hb, Nat.shiftLeft_eq]
  rw [hword, hor h₃, hor (by omega : b₂.toNat * 2 ^ 8 + b₃.toNat < 2 ^ 16),
    hor (by omega : b₁.toNat * 2 ^ 16 + (b₂.toNat * 2 ^ 8 + b₃.toNat) < 2 ^ 24)]
  simp only [bigEndian, List.foldl_cons, List.foldl_nil]
  omega

theorem bigEndian_wordBytes (w : UInt32) : bigEndian (wordBytes w) = w.toNat := by
  have hbyte : ∀ v : UInt32, ((v &&& 0xFF).toUInt8).toNat = v.toNat % 2 ^ 8 := by
    intro v
    have hand : v.toNat &&& 255 = v.toNat % 2 ^ 8 := Nat.and_two_pow_sub_one_eq_mod v.toNat 8
    have hlt : v.toNat % 2 ^ 8 < 2 ^ 8 := Nat.mod_lt _ (by decide)
    calc ((v &&& 0xFF).toUInt8).toNat = (v.toNat &&& 255) % 2 ^ 8 := rfl
      _ = v.toNat % 2 ^ 8 := by rw [hand, Nat.mod_eq_of_lt hlt]
  have hright : ∀ k : Nat, w.toNat >>> k = w.toNat / 2 ^ k := fun k => Nat.shiftRight_eq_div_pow _ k
  have hw := w.toNat_lt
  have h24 : (w >>> 24).toNat = w.toNat / 2 ^ 24 := hright 24
  have h16 : (w >>> 16).toNat = w.toNat / 2 ^ 16 := hright 16
  have h8 : (w >>> 8).toNat = w.toNat / 2 ^ 8 := hright 8
  simp only [wordBytes, bigEndian, List.foldl_cons, List.foldl_nil, hbyte, h24, h16, h8]
  omega

/-- Four bytes are known by their number. -/
theorem bigEndian_inj {s t : Bytes} (hs : s.length = 4) (ht : t.length = 4)
    (h : bigEndian s = bigEndian t) : s = t := by
  obtain ⟨a₀, a₁, a₂, a₃, rfl⟩ : ∃ a₀ a₁ a₂ a₃, s = [a₀, a₁, a₂, a₃] := by
    match s, hs with
    | [a₀, a₁, a₂, a₃], _ => exact ⟨a₀, a₁, a₂, a₃, rfl⟩
  obtain ⟨b₀, b₁, b₂, b₃, rfl⟩ : ∃ b₀ b₁ b₂ b₃, t = [b₀, b₁, b₂, b₃] := by
    match t, ht with
    | [b₀, b₁, b₂, b₃], _ => exact ⟨b₀, b₁, b₂, b₃, rfl⟩
  have ha₁ := a₁.toNat_lt
  have ha₂ := a₂.toNat_lt
  have ha₃ := a₃.toNat_lt
  have hb₁ := b₁.toNat_lt
  have hb₂ := b₂.toNat_lt
  have hb₃ := b₃.toNat_lt
  simp only [bigEndian, List.foldl_cons, List.foldl_nil] at h
  have h₀ : a₀.toNat = b₀.toNat := by omega
  have h₁ : a₁.toNat = b₁.toNat := by omega
  have h₂ : a₂.toNat = b₂.toNat := by omega
  have h₃ : a₃.toNat = b₃.toNat := by omega
  rw [UInt8.toNat_inj.mp h₀, UInt8.toNat_inj.mp h₁, UInt8.toNat_inj.mp h₂, UInt8.toNat_inj.mp h₃]

theorem bytesWord_eq_magic (b₀ b₁ b₂ b₃ : UInt8) :
    bytesWord b₀ b₁ b₂ b₃ = kFrameMagic ↔ [b₀, b₁, b₂, b₃] = magic := by
  rw [← UInt32.toNat_inj, toNat_bytesWord]
  constructor
  · exact fun h => bigEndian_inj rfl rfl (h.trans (by decide))
  · exact fun h => h ▸ (by decide)

end Words

/-! ## The front of a buffer -/

theorem IsFrame.length {payload frame : Bytes} (h : IsFrame payload frame) :
    frame.length = 8 + payload.length := by
  obtain ⟨len, rfl, hlen, -, -⟩ := h
  simp only [List.length_append, hlen, magic, List.length_cons, List.length_nil]

/-- What `encodeFrame` builds is the frame of a payload within the limit. -/
theorem isFrame_iff {payload frame : Bytes} :
    IsFrame payload frame ↔ payload.length ≤ 2 ^ 20 ∧ frame = encodeFrame payload := by
  have hmagic : wordBytes kFrameMagic = magic := by decide
  have hbig : payload.length ≤ 2 ^ 20 →
      bigEndian (wordBytes (UInt32.ofNat payload.length)) = payload.length := by
    intro h
    rw [bigEndian_wordBytes, UInt32.toNat_ofNat_of_lt' (show payload.length < 2 ^ 32 by omega)]
  constructor
  · rintro ⟨len, rfl, hlen, hval, hmax⟩
    refine ⟨hmax, ?_⟩
    rw [encodeFrame, hmagic, bigEndian_inj hlen rfl (hval.trans (hbig hmax).symm)]
  · rintro ⟨hmax, rfl⟩
    exact ⟨_, by rw [encodeFrame, hmagic], rfl, hbig hmax, hmax⟩

/-- The front of a buffer. -/
def front (s : Bytes) : Front UInt8 Bytes :=
  if s.length < 8 then .short
  else if BadHeader s then .bad
  else
    let len := bigEndian ((s.drop 4).take 4)
    if s.length < 8 + len then .short else .item ((s.drop 8).take len) (s.drop (8 + len))

theorem front_eq_bad {s : Bytes} : front s = .bad ↔ BadHeader s := by
  rw [front]
  split
  · next h =>
    have hnot : ¬BadHeader s := fun hbad => absurd hbad.1 (by omega)
    simp [hnot]
  · split
    · next h => simp [h]
    · next h =>
      dsimp only
      split <;> simp [h]

/-- An item at the front is a complete frame there. -/
theorem front_eq_item {s payload rest : Bytes} :
    front s = .item payload rest ↔ ∃ frame, IsFrame payload frame ∧ s = frame ++ rest := by
  constructor
  · intro h
    unfold front at h
    split at h
    · cases h
    · next h8 =>
      split at h
      · cases h
      · next hgood =>
        set len := bigEndian ((s.drop 4).take 4) with hlen
        dsimp only at h
        split at h
        · cases h
        · next hlong =>
          cases h
          have hmagic : s.take 4 = magic := by
            by_contra hne
            exact hgood ⟨by omega, Or.inl hne⟩
          have hmax : len ≤ 2 ^ 20 := by
            by_contra hgt
            exact hgood ⟨by omega, Or.inr (by omega)⟩
          have hpay : ((s.drop 8).take len).length = len := by
            rw [List.length_take, List.length_drop]
            omega
          refine ⟨magic ++ (s.drop 4).take 4 ++ (s.drop 8).take len, ⟨_, rfl, ?_, ?_, ?_⟩, ?_⟩
          · rw [List.length_take, List.length_drop]
            omega
          · rw [hpay]
          · rw [hpay]
            exact hmax
          · rw [← hmagic, List.append_assoc, List.append_assoc, ← List.drop_drop,
              List.take_append_drop, ← List.drop_drop (i := 4) (j := 4), List.take_append_drop,
              List.take_append_drop]
  · rintro ⟨frame, hframe, rfl⟩
    have hlength := hframe.length
    obtain ⟨len, rfl, hlen, hval, hmax⟩ := hframe
    set s := magic ++ len ++ payload ++ rest with hs
    have hs8 : s.length = 8 + payload.length + rest.length := by
      rw [hs, List.length_append, hlength]
    have h4 : s.drop 4 = len ++ (payload ++ rest) := by
      rw [hs, List.append_assoc, List.append_assoc]
      rfl
    have h8 : s.drop 8 = payload ++ rest := by
      rw [show 8 = 4 + 4 from rfl, ← List.drop_drop, h4, List.drop_left' hlen]
    have hlen4 : (s.drop 4).take 4 = len := by rw [h4, List.take_left' hlen]
    have hgood : ¬BadHeader s := by
      rintro ⟨-, hbad | hbad⟩
      · exact hbad (by rw [hs, List.append_assoc, List.append_assoc]; rfl)
      · rw [hlen4, hval] at hbad
        omega
    rw [front, if_neg (by omega), if_neg hgood, hlen4, hval]
    dsimp only
    rw [if_neg (by omega), h8, List.take_left, ← List.drop_drop, h8, List.drop_left]

/-- The code reads the front of its buffer. -/
theorem next_eq (d : FrameDecoder) : d.next =
    if d.error then (none, d)
    else
      match front d.buf with
      | .short => (none, d)
      | .bad => (none, { d with error := true })
      | .item payload rest => (some payload, { d with buf := rest }) := by
  unfold FrameDecoder.next
  split
  · rfl
  · split
    · next b₀ b₁ b₂ b₃ b₄ b₅ b₆ b₇ rest hbuf =>
      have hmagic := bytesWord_eq_magic b₀ b₁ b₂ b₃
      have hmax : bytesWord b₄ b₅ b₆ b₇ > kMaxPayloadBytes ↔
          2 ^ 20 < bigEndian [b₄, b₅, b₆, b₇] := by
        rw [← toNat_bytesWord]
        exact UInt32.lt_iff_toNat_lt
      have h8 : ¬d.buf.length < 8 := by
        rw [hbuf]
        simp
      have hbad : BadHeader d.buf ↔
          bytesWord b₀ b₁ b₂ b₃ ≠ kFrameMagic ∨ bytesWord b₄ b₅ b₆ b₇ > kMaxPayloadBytes := by
        rw [BadHeader, and_iff_right (not_lt.mp h8), hbuf, ne_eq, ne_eq, hmagic, hmax]
        rfl
      have hlen : bigEndian ((d.buf.drop 4).take 4) = (bytesWord b₄ b₅ b₆ b₇).toNat := by
        rw [hbuf, toNat_bytesWord]
        rfl
      have hdrop : d.buf.drop 8 = rest := by
        rw [hbuf]
        rfl
      have hlong : d.buf.length < 8 + (bytesWord b₄ b₅ b₆ b₇).toNat ↔
          rest.length < (bytesWord b₄ b₅ b₆ b₇).toNat := by
        rw [hbuf]
        simp only [List.length_cons]
        omega
      rw [front, if_neg h8, hlen]
      dsimp only
      by_cases h₁ : bytesWord b₀ b₁ b₂ b₃ ≠ kFrameMagic
      · rw [if_pos h₁, if_pos (hbad.mpr (Or.inl h₁))]
      · by_cases h₂ : bytesWord b₄ b₅ b₆ b₇ > kMaxPayloadBytes
        · rw [if_neg h₁, if_pos h₂, if_pos (hbad.mpr (Or.inr h₂))]
        · rw [if_neg h₁, if_neg h₂, if_neg (mt hbad.mp (not_or.mpr ⟨h₁, h₂⟩))]
          by_cases h₃ : rest.length < (bytesWord b₄ b₅ b₆ b₇).toNat
          · rw [if_pos h₃, if_pos (hlong.mpr h₃)]
          · rw [if_neg h₃, if_neg (mt hlong.mp h₃), ← List.drop_drop, hdrop]
    · next hshort =>
      have h8 : d.buf.length < 8 := by
        match hbuf : d.buf with
        | b₀ :: b₁ :: b₂ :: b₃ :: b₄ :: b₅ :: b₆ :: b₇ :: rest =>
          exact (hshort _ _ _ _ _ _ _ _ _ hbuf).elim
        | [] | [_] | [_, _] | [_, _, _] => simp
        | [_, _, _, _] | [_, _, _, _, _] | [_, _, _, _, _, _] | [_, _, _, _, _, _, _] => simp
      rw [front, if_pos h8]

/-- Frames, cut off the front of a stream. -/
def frames : Splitter UInt8 Bytes where
  front := front
  shorter := by
    intro l payload r h
    obtain ⟨frame, hframe, rfl⟩ := front_eq_item.mp h
    rw [List.length_append, hframe.length]
    omega
  item_append := by
    intro l payload r h m
    obtain ⟨frame, hframe, rfl⟩ := front_eq_item.mp h
    exact front_eq_item.mpr ⟨frame, hframe, List.append_assoc _ _ _⟩
  bad_append := by
    intro l h m
    obtain ⟨h8, hbad⟩ := front_eq_bad.mp h
    refine front_eq_bad.mpr ⟨?_, ?_⟩
    · rw [List.length_append]
      omega
    · rw [List.take_append_of_le_length (by omega), List.drop_append_of_le_length (by omega),
        List.take_append_of_le_length (by rw [List.length_drop]; omega)]
      exact hbad

theorem items_iff {stream rest : Bytes} {payloads : List Bytes} :
    Items frames stream payloads rest ↔ Framed stream payloads rest := by
  constructor
  · intro h
    induction h with
    | nil => exact ⟨[], .nil, rfl⟩
    | cons head _ ih =>
      obtain ⟨frame, hframe, rfl⟩ := front_eq_item.mp head
      obtain ⟨fs, hfs, rfl⟩ := ih
      exact ⟨frame :: fs, .cons hframe hfs, by rw [List.flatten_cons, List.append_assoc]⟩
  · rintro ⟨fs, hfs, rfl⟩
    induction hfs with
    | nil => exact .nil
    | cons hframe _ ih =>
      refine .cons (front_eq_item.mpr ⟨_, hframe, ?_⟩) ih
      rw [List.flatten_cons, List.append_assoc]

/-! ## Decoding -/

/-- A decoder that has taken `payloads` off the stream fed to it. -/
structure Decoded (stream : Bytes) (payloads : List Bytes) (d : FrameDecoder) : Prop where
  cut : Cut frames stream payloads d.buf
  error : d.error = true ↔ BadHeader d.buf

theorem decoded_empty : Decoded [] [] FrameDecoder.empty :=
  ⟨⟨.nil, fun _ _ h => by cases h⟩, by decide⟩

/-- A loop with fuel for every byte takes all frames off the buffer. -/
theorem drainLoop_spec {fuel : Nat} {d : FrameDecoder} (hfuel : d.buf.length < fuel)
    (herror : d.error = true → BadHeader d.buf) :
    Decoded d.buf (d.drainLoop fuel).1 (d.drainLoop fuel).2 := by
  induction fuel generalizing d with
  | zero => omega
  | succ fuel ih =>
    rw [FrameDecoder.drainLoop, next_eq]
    by_cases herr : d.error = true
    · have hbad := herror herr
      rw [if_pos herr]
      refine ⟨⟨.nil, fun _ _ h => ?_⟩, by simp [herr, hbad]⟩
      rw [show frames.front d.buf = .bad from front_eq_bad.mpr hbad] at h
      cases h
    · rw [if_neg herr]
      cases hfront : front d.buf with
      | short =>
        refine ⟨⟨.nil, fun _ _ h => ?_⟩, iff_of_false herr fun hbad => ?_⟩
        · rw [show frames.front d.buf = .short from hfront] at h
          cases h
        · rw [front_eq_bad.mpr hbad] at hfront
          cases hfront
      | bad =>
        refine ⟨⟨.nil, fun _ _ h => ?_⟩, iff_of_true rfl (front_eq_bad.mp hfront)⟩
        rw [show frames.front d.buf = .bad from hfront] at h
        cases h
      | item payload rest =>
        have hshort : rest.length < d.buf.length := frames.shorter hfront
        obtain ⟨hcut, herror'⟩ := ih (d := { d with buf := rest }) (by dsimp only; omega)
          fun h => absurd h herr
        exact ⟨⟨.cons hfront hcut.1, hcut.2⟩, herror'⟩

section Chunks

variable {stream : Bytes} {payloads : List Bytes} {d : FrameDecoder}

/-- What was left over, with one more chunk. -/
theorem Decoded.drained (h : Decoded stream payloads d) (chunk : Bytes) :
    Decoded (d.buf ++ chunk) (d.feed chunk).drain.1 (d.feed chunk).drain.2 := by
  have herror : (d.feed chunk).error = true → BadHeader (d.feed chunk).buf := fun herr =>
    front_eq_bad.mp (frames.bad_append (front_eq_bad.mpr (h.error.mp herr)) chunk)
  exact drainLoop_spec (Nat.lt_succ_self _) herror

/-- One more chunk: the frames it completes come after those before. -/
theorem Decoded.feed (h : Decoded stream payloads d) (chunk : Bytes) :
    Decoded (stream ++ chunk) (payloads ++ (d.feed chunk).drain.1) (d.feed chunk).drain.2 :=
  ⟨h.cut.arrive (h.drained chunk).cut, (h.drained chunk).error⟩

theorem Decoded.feedAll (h : Decoded stream payloads d) (chunks : List Bytes) :
    Decoded (stream ++ chunks.flatten) (payloads ++ (d.feedAll chunks).1) (d.feedAll chunks).2 := by
  induction chunks generalizing stream payloads d with
  | nil => simpa [FrameDecoder.feedAll] using h
  | cons chunk chunks ih =>
    have hrest := ih (h.feed chunk)
    rw [List.append_assoc, List.append_assoc] at hrest
    exact hrest

/-- After an error no chunk yields a payload. -/
theorem feedAll_of_error (herr : d.error = true) (chunks : List Bytes) :
    (d.feedAll chunks).1 = [] ∧ (d.feedAll chunks).2.error = true := by
  induction chunks generalizing d with
  | nil => exact ⟨rfl, herr⟩
  | cons chunk chunks ih =>
    have hdrain : (d.feed chunk).drain = ([], d.feed chunk) := by
      rw [FrameDecoder.drain, FrameDecoder.drainLoop, FrameDecoder.next,
        if_pos (show (d.feed chunk).error = true from herr)]
    rw [FrameDecoder.feedAll, hdrain]
    exact ih herr

end Chunks

/-- Whatever the chunks, the payloads are those of the longest sequence of frames at the front of
the stream, and the error is a bad header behind it. -/
theorem decoding_is_chunk_free (chunks : List Bytes) :
    (∃ rest, Framed chunks.flatten (FrameDecoder.empty.feedAll chunks).1 rest ∧
      (∀ payloads rest', Framed chunks.flatten payloads rest' →
        payloads <+: (FrameDecoder.empty.feedAll chunks).1) ∧
      ((FrameDecoder.empty.feedAll chunks).2.error = true ↔ BadHeader rest)) ∧
    ((FrameDecoder.empty.feedAll chunks).2.error = true →
      ∀ later, ((FrameDecoder.empty.feedAll chunks).2.feedAll later).1 = [] ∧
        ((FrameDecoder.empty.feedAll chunks).2.feedAll later).2.error = true) ∧
    ∀ payloads : List Bytes, (∀ p ∈ payloads, p.length ≤ 2 ^ 20) →
      chunks.flatten = (payloads.map encodeFrame).flatten →
      (FrameDecoder.empty.feedAll chunks).1 = payloads ∧
        (FrameDecoder.empty.feedAll chunks).2.error = false := by
  have h := decoded_empty.feedAll chunks
  rw [List.nil_append, List.nil_append] at h
  refine ⟨⟨_, items_iff.mp h.cut.1, fun payloads rest' hf => ?_, h.error⟩, feedAll_of_error,
    fun payloads hmax hstream => ?_⟩
  · exact h.cut.prefix_of_items (items_iff.mpr hf)
  · have hframed : Framed chunks.flatten payloads [] := by
      refine ⟨payloads.map encodeFrame, ?_, by rw [hstream, List.append_nil]⟩
      rw [List.forall₂_map_right_iff, List.forall₂_same]
      exact fun p hp => isFrame_iff.mpr ⟨hmax p hp, rfl⟩
    have hcut : Cut frames chunks.flatten payloads [] :=
      ⟨items_iff.mpr hframed, decoded_empty.cut.2⟩
    obtain ⟨hpayloads, hbuf⟩ := h.cut.unique hcut
    refine ⟨hpayloads, Bool.eq_false_iff.mpr fun herr => ?_⟩
    have hbad := h.error.mp herr
    rw [hbuf] at hbad
    exact absurd hbad.1 (by decide)

end MarketMakerOps.Exchange
