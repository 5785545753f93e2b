import MarketMakerOps.Lib.Json
import MarketMakerOps.Lib.Utf8
import MarketMakerOps.Exchange.Framing

/-!
The Python client's framing (`venue_client/client.py`), a pull reader over the
same stream the venue's push decoder is fed.

* `readFrame`, `receiveLoop`: the code, up to `json.loads`;
* `jsonLoads`: `json.loads` of a payload;
* `readFrame_front`: it reads the front of the stream as `FrameDecoder.next` does;
* `framing_layers_agree`: payloads, stopping place and error are those of the
  decoder, and the headers built are the same.
-/

namespace MarketMakerOps.Exchange

open Decimal Splitting

/-- `json.loads` of bytes, which must be UTF-8: no payload of the venue begins as UTF-16 or UTF-32
does. A `UnicodeDecodeError` is `none` like a `JSONDecodeError`. -/
def jsonLoads (text : Bytes) : Option (List Json.Member) :=
  if Utf8.isUtf8 text then Json.parse text else none

theorem jsonLoads_eq {text : Bytes} (h : Utf8.isUtf8 text = true) :
    jsonLoads text = Json.parse text :=
  if_pos h

namespace VenueClient

def MAGIC : Nat := 0x56454E31

def HEADER_SIZE : Nat := 8

def MAX_PAYLOAD_BYTES : Nat := 1 <<< 20

/-- A `FramingError`, with the number its message shows. -/
inductive FramingError
  | badFrameMagic (magic : Nat)
  | lengthExceedsMax (length : Nat)
  deriving DecidableEq, Repr

inductive Error
  | incompleteRead
  | framing (e : FramingError)
  | struct
  deriving DecidableEq, Repr

def Error.isFraming : Error → Bool
  | .framing _ => true
  | _ => false

/-- `">I"` of `struct.pack`: four bytes, most significant first, for a number they can hold. -/
def packWord (n : Nat) : Except Error Bytes :=
  if n < 2 ^ 32 then
    .ok [UInt8.ofNat (n / 2 ^ 24), UInt8.ofNat (n / 2 ^ 16), UInt8.ofNat (n / 2 ^ 8), UInt8.ofNat n]
  else .error .struct

/-- `struct.pack(">II", magic, length)`. -/
def packHeader (magic length : Nat) : Except Error Bytes := do
  let m ← packWord magic
  let l ← packWord length
  pure (m ++ l)

/-- `struct.unpack(">II", header)`. -/
def unpackHeader (header : Bytes) : Nat × Nat :=
  (bigEndian (header.take 4), bigEndian (header.drop 4))

/-- `encode_frame` behind `json.dumps`. -/
def encodeFrame (payload : Bytes) : Except Error Bytes := do
  let header ← packHeader MAGIC payload.length
  pure (header ++ payload)

/-- The next `n` bytes of the stream, or an error when it ends before. -/
def readexactly (n : Nat) (stream : Bytes) : Except Error (Bytes × Bytes) :=
  if stream.length < n then .error .incompleteRead else .ok (stream.take n, stream.drop n)

/-- The payload `_read_frame` hands to `json.loads`, and the stream behind it. -/
def readFrame (stream : Bytes) : Except Error (Bytes × Bytes) := do
  let (header, stream) ← readexactly HEADER_SIZE stream
  let (magic, length) := unpackHeader header
  if magic ≠ MAGIC then throw (.framing (.badFrameMagic magic))
  if length > MAX_PAYLOAD_BYTES then throw (.framing (.lengthExceedsMax length))
  readexactly length stream

/-- What the loop has read when `_read_frame` raises, and the stream from that frame's header on. -/
structure Received where
  payloads : List Bytes
  error : Error
  rest : Bytes
  deriving DecidableEq, Repr

/-- `_receive_loop`, for at most so many frames. -/
def receiveLoop : Nat → Bytes → Option Received
  | 0, _ => none
  | fuel + 1, stream =>
    match readFrame stream with
    | .error e => some ⟨[], e, stream⟩
    | .ok (payload, later) =>
      (receiveLoop fuel later).map fun r => { r with payloads := payload :: r.payloads }

/-- Each frame takes bytes off the stream. -/
def receive (stream : Bytes) : Option Received := receiveLoop (stream.length + 1) stream

end VenueClient

/-! ## Reading -/

section Reading

variable {stream : Bytes}

theorem readexactly_of_le {n : Nat} (h : n ≤ stream.length) :
    VenueClient.readexactly n stream = .ok (stream.take n, stream.drop n) :=
  if_neg (Nat.not_lt.mpr h)

/-- The numbers of a header, read by slices. -/
theorem unpackHeader_take : VenueClient.unpackHeader (stream.take VenueClient.HEADER_SIZE) =
    (bigEndian (stream.take 4), bigEndian ((stream.drop 4).take 4)) := by
  rw [VenueClient.unpackHeader, List.take_take, List.drop_take]
  rfl

/-- The magic number names its four letters. -/
theorem bigEndian_eq_MAGIC (h : 4 ≤ stream.length) :
    bigEndian (stream.take 4) = VenueClient.MAGIC ↔ stream.take 4 = magic := by
  have hlen : (stream.take 4).length = 4 := by rw [List.length_take]; omega
  constructor
  · exact fun e => bigEndian_inj hlen rfl (e.trans (by decide))
  · exact fun e => e ▸ (by decide)

/-- What one `_read_frame` does, by the front of the stream. -/
theorem readFrame_front (stream : Bytes) :
    match front stream with
    | .short => VenueClient.readFrame stream = .error .incompleteRead
    | .bad => ∃ e, VenueClient.readFrame stream = .error (.framing e)
    | .item payload rest => VenueClient.readFrame stream = .ok (payload, rest) := by
  by_cases h8 : stream.length < 8
  · have hread : VenueClient.readexactly VenueClient.HEADER_SIZE stream = .error .incompleteRead :=
      if_pos h8
    rw [front, if_pos h8]
    simp only [VenueClient.readFrame, hread]
    rfl
  · have hread := readexactly_of_le (show VenueClient.HEADER_SIZE ≤ stream.length from
      Nat.not_lt.mp h8)
    have hmagic := bigEndian_eq_MAGIC (show 4 ≤ stream.length by omega)
    have hbad : BadHeader stream ↔ bigEndian (stream.take 4) ≠ VenueClient.MAGIC ∨
        bigEndian ((stream.drop 4).take 4) > VenueClient.MAX_PAYLOAD_BYTES := by
      rw [BadHeader, and_iff_right (Nat.not_lt.mp h8), ne_eq, ne_eq, hmagic]
      rfl
    have hcode : VenueClient.readFrame stream =
        if bigEndian (stream.take 4) ≠ VenueClient.MAGIC then
          .error (.framing (.badFrameMagic (bigEndian (stream.take 4))))
        else if bigEndian ((stream.drop 4).take 4) > VenueClient.MAX_PAYLOAD_BYTES then
          .error (.framing (.lengthExceedsMax (bigEndian ((stream.drop 4).take 4))))
        else VenueClient.readexactly (bigEndian ((stream.drop 4).take 4)) (stream.drop 8) := by
      simp only [VenueClient.readFrame, hread, bind, Except.bind, unpackHeader_take]
      split <;> [rfl; (split <;> rfl)]
    rw [front, if_neg h8, hcode]
    by_cases h : BadHeader stream
    · rw [if_pos h]
      dsimp only
      split
      · exact ⟨_, rfl⟩
      · next h₁ =>
        rw [if_pos ((hbad.mp h).resolve_left h₁)]
        exact ⟨_, rfl⟩
    · rw [if_neg h]
      obtain ⟨h₁, h₂⟩ := not_or.mp (mt hbad.mpr h)
      rw [if_neg h₁, if_neg h₂, VenueClient.readexactly, List.length_drop]
      dsimp only
      generalize bigEndian ((stream.drop 4).take 4) = len
      by_cases hlong : stream.length < 8 + len
      · rw [if_pos hlong, if_pos (by omega)]
      · rw [if_neg hlong, if_neg (by omega), List.drop_drop]

end Reading

/-! ## The same payloads -/

/-- The loop takes all frames off the stream; it ends in a `FramingError` at a bad header. -/
theorem receiveLoop_spec {n : Nat} {stream : Bytes} (hfuel : stream.length < n) :
    ∃ r, VenueClient.receiveLoop n stream = some r ∧ Cut frames stream r.payloads r.rest ∧
      (r.error.isFraming = true ↔ BadHeader r.rest) ∧
      (¬BadHeader r.rest → r.error = .incompleteRead) := by
  induction n generalizing stream with
  | zero => omega
  | succ n ih =>
    have hread := readFrame_front stream
    rw [VenueClient.receiveLoop]
    cases hfront : front stream with
    | short =>
      have hgood : ¬BadHeader stream := fun hbad => by
        rw [front_eq_bad.mpr hbad] at hfront
        cases hfront
      rw [hfront] at hread
      rw [hread]
      refine ⟨_, rfl, ⟨.nil, fun a r h => ?_⟩, iff_of_false Bool.false_ne_true hgood, fun _ => rfl⟩
      rw [show frames.front stream = .short from hfront] at h
      cases h
    | bad =>
      have hbad := front_eq_bad.mp hfront
      rw [hfront] at hread
      obtain ⟨e, hread⟩ := hread
      rw [hread]
      refine ⟨_, rfl, ⟨.nil, fun a r h => ?_⟩, iff_of_true rfl hbad, fun hgood => absurd hbad hgood⟩
      rw [show frames.front stream = .bad from hfront] at h
      cases h
    | item payload rest =>
      have hshort : rest.length < stream.length := frames.shorter hfront
      rw [hfront] at hread
      obtain ⟨r, hr, hcut, herror⟩ := ih (show rest.length < n by omega)
      rw [hread]
      dsimp only
      rw [hr]
      exact ⟨_, rfl, ⟨.cons hfront hcut.1, hcut.2⟩, herror⟩

/-! ## The same headers -/

/-- Four bytes by division are four bytes by shift. -/
theorem packWord_eq {n : Nat} (h : n < 2 ^ 32) :
    VenueClient.packWord n = .ok (wordBytes (UInt32.ofNat n)) := by
  have hvalue : bigEndian [UInt8.ofNat (n / 2 ^ 24), UInt8.ofNat (n / 2 ^ 16),
      UInt8.ofNat (n / 2 ^ 8), UInt8.ofNat n] = n := by
    simp only [bigEndian, List.foldl_cons, List.foldl_nil, UInt8.toNat_ofNat']
    omega
  rw [VenueClient.packWord, if_pos h]
  refine congrArg _ (bigEndian_inj rfl rfl (hvalue.trans ?_))
  rw [bigEndian_wordBytes, UInt32.toNat_ofNat_of_lt' h]

theorem packHeader_eq {payload : Bytes} (h : payload.length < 2 ^ 32) :
    VenueClient.packHeader VenueClient.MAGIC payload.length =
      .ok (wordBytes kFrameMagic ++ wordBytes (UInt32.ofNat payload.length)) := by
  rw [VenueClient.packHeader, packWord_eq h,
    packWord_eq (show VenueClient.MAGIC < 2 ^ 32 by decide)]
  rfl

/-- The push decoder, fed in any chunks, and the pull reader take the same payloads off a stream,
stop at the same byte of it, and end in a framing error together; their headers are the same. -/
theorem framing_layers_agree :
    (∀ chunks : List Bytes, ∃ r, VenueClient.receive chunks.flatten = some r ∧
      (FrameDecoder.empty.feedAll chunks).1 = r.payloads ∧
      (FrameDecoder.empty.feedAll chunks).2.buf = r.rest ∧
      ((FrameDecoder.empty.feedAll chunks).2.error = true ↔ r.error.isFraming = true) ∧
      ((FrameDecoder.empty.feedAll chunks).2.error = false ↔ r.error = .incompleteRead)) ∧
    ∀ payload : Bytes, payload.length < 2 ^ 32 →
      VenueClient.packHeader VenueClient.MAGIC payload.length =
        .ok ((encodeFrame payload).take kFrameHeaderBytes) ∧
      VenueClient.encodeFrame payload = .ok (encodeFrame payload) := by
  refine ⟨fun chunks => ?_, fun payload h => ?_⟩
  · obtain ⟨r, hr, hcut, herror, hincomplete⟩ :=
      receiveLoop_spec (Nat.lt_succ_self chunks.flatten.length)
    have hdecoded := decoded_empty.feedAll chunks
    rw [List.nil_append, List.nil_append] at hdecoded
    obtain ⟨hpayloads, hbuf⟩ := hdecoded.cut.unique hcut
    have hbad := hdecoded.error
    rw [hbuf] at hbad
    refine ⟨r, hr, hpayloads, hbuf, hbad.trans herror.symm, ?_⟩
    rw [Bool.eq_false_iff, ne_eq, hbad]
    refine ⟨hincomplete, fun hinc => ?_⟩
    rw [← herror, hinc]
    exact Bool.false_ne_true
  · have hheader := packHeader_eq h
    refine ⟨hheader, ?_⟩
    rw [VenueClient.encodeFrame, hheader]
    rfl

end MarketMakerOps.Exchange
