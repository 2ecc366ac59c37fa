import Locron.Lib.Bytes
import Locron.Lib.Framing

set_option autoImplicit false

/-! # The format of output files

The output of an attempt is a file with a header of eight bytes, followed by frames. A frame has a
channel, a sequence number, a time, the length of its payload and a checksum, and then the payload.
`readFrame` is the reader of the store; with it the frames form a log (`frameCodec`).
-/

namespace Locron

def u64Max : Nat := 18446744073709551615

/-- Origin of an output frame. -/
inductive Channel where
  | stdout
  | stderr
  | body
deriving DecidableEq, Repr

namespace Channel

def code : Channel → UInt8
  | .stdout => 1
  | .stderr => 2
  | .body => 3

def ofCode (value : UInt8) : Option Channel :=
  if value = 1 then some .stdout
  else if value = 2 then some .stderr
  else if value = 3 then some .body
  else none

theorem ofCode_code (c : Channel) : ofCode c.code = some c := by
  cases c <;> rfl

theorem code_of_ofCode {value : UInt8} {c : Channel} (h : ofCode value = some c) :
    c.code = value := by
  unfold ofCode at h
  split at h
  · next hvalue =>
    cases h
    exact hvalue.symm
  split at h
  · next hvalue =>
    cases h
    exact hvalue.symm
  obtain ⟨hvalue, heq⟩ := Option.ite_none_right_eq_some.mp h
  cases heq
  exact hvalue.symm

end Channel

/-- One decoded frame; the time is in microseconds since the attempt started. -/
structure Frame where
  channel : Channel
  sequence : Nat
  elapsed : Nat
  payload : List UInt8
deriving DecidableEq, Repr

/-- The header of a file: `LOCRON`, a zero and the version. -/
def outputMagic : List UInt8 := [76, 79, 67, 82, 79, 78, 0, 1]

def frameHeaderLen : Nat := 25

def maxFrameLen : Nat := 1024 * 1024

/-! ## The checksum -/

/-- One bit of the reflected CRC-32. -/
def crcBit (c : UInt32) : UInt32 :=
  if c &&& 1 = 1 then (c >>> 1) ^^^ 0xEDB88320 else c >>> 1

def crcByte (c : UInt32) (b : UInt8) : UInt32 :=
  crcBit^[8] (c ^^^ b.toUInt32)

def crc32 (bytes : List UInt8) : UInt32 := bytes.foldl crcByte 0xFFFFFFFF ^^^ 0xFFFFFFFF

/-! ## Encoding -/

namespace Frame

/-- The fields that the checksum covers, besides the payload. -/
def fields (f : Frame) : List UInt8 :=
  f.channel.code :: (Bytes.encode 8 f.sequence ++ (Bytes.encode 8 f.elapsed
    ++ Bytes.encode 4 f.payload.length))

def checksum (f : Frame) : Nat := (crc32 (f.fields ++ f.payload)).toNat

def header (f : Frame) : List UInt8 := f.fields ++ Bytes.encode 4 f.checksum

def encode (f : Frame) : List UInt8 := f.header ++ f.payload

@[simp] theorem length_fields (f : Frame) : f.fields.length = 21 := by
  simp [fields]

@[simp] theorem length_header (f : Frame) : f.header.length = frameHeaderLen := by
  simp [header, frameHeaderLen]

@[simp] theorem length_encode (f : Frame) :
    f.encode.length = frameHeaderLen + f.payload.length := by
  simp [encode]

theorem checksum_lt (f : Frame) : f.checksum < 256 ^ 4 := (crc32 _).toNat_lt

/-- The frame fits its fields, as the frame of the given number. -/
structure Valid (i : Nat) (f : Frame) : Prop where
  sequence : f.sequence = i
  counts : i < 256 ^ 8
  elapsed : f.elapsed < 256 ^ 8
  payload : f.payload.length ≤ maxFrameLen

end Frame

/-! ## Reading -/

/-- The fields of a frame header, as both readers take them from its 25 bytes. -/
structure FrameHeader where
  channel : UInt8
  sequence : Nat
  elapsed : Nat
  length : Nat
  crc : Nat
deriving DecidableEq, Repr

def FrameHeader.ofBytes (header : List UInt8) : FrameHeader where
  channel := header.headD 0
  sequence := Bytes.decode ((header.drop 1).take 8)
  elapsed := Bytes.decode ((header.drop 9).take 8)
  length := Bytes.decode ((header.drop 17).take 4)
  crc := Bytes.decode ((header.drop 21).take 4)

def checksumMatches (header payload : List UInt8) : Prop :=
  (crc32 (header.take 21 ++ payload)).toNat = (FrameHeader.ofBytes header).crc

instance (header payload : List UInt8) : Decidable (checksumMatches header payload) :=
  inferInstanceAs (Decidable (_ = _))

/-- Failures of reading and writing files. -/
inductive IoError where
  | notFound
  | unexpectedEof
  | invalidData (message : String)
  | invalidInput (message : String)
deriving DecidableEq, Repr

/-- The store tells a corrupt frame from an error of the file. -/
inductive FrameReadError where
  | io (error : IoError)
  | invalidFrame (message : String)
deriving DecidableEq, Repr

def FrameReadError.intoIo : FrameReadError → IoError
  | .io error => error
  | .invalidFrame message => .invalidData message

/-- The next frame, which must have number `next`, and the bytes after it. -/
def readFrame (next : Nat) (bytes : List UInt8) :
    Except FrameReadError (Option (Frame × List UInt8)) :=
  match Bytes.readExact frameHeaderLen bytes with
  | none => .ok none
  | some (header, rest) =>
    let h := FrameHeader.ofBytes header
    match Channel.ofCode h.channel with
    | none => .error (.invalidFrame "bad channel")
    | some channel =>
      if maxFrameLen < h.length ∨ h.sequence ≠ next then .error (.invalidFrame "invalid frame")
      else
        match Bytes.readExact h.length rest with
        | none => .error (.io .unexpectedEof)
        | some (payload, rest) =>
          if checksumMatches header payload then
            .ok (some (⟨channel, h.sequence, h.elapsed, payload⟩, rest))
          else .error (.invalidFrame "checksum mismatch")

/-! ## Frames as a log -/

theorem FrameHeader.ofBytes_header {i : Nat} {f : Frame} (h : f.Valid i) :
    FrameHeader.ofBytes f.header
      = ⟨f.channel.code, f.sequence, f.elapsed, f.payload.length, f.checksum⟩ := by
  have hseq : Bytes.decode (Bytes.encode 8 f.sequence) = f.sequence :=
    Bytes.decode_encode (h.sequence ▸ h.counts)
  have helapsed : Bytes.decode (Bytes.encode 8 f.elapsed) = f.elapsed :=
    Bytes.decode_encode h.elapsed
  have hlength : Bytes.decode (Bytes.encode 4 f.payload.length) = f.payload.length := by
    refine Bytes.decode_encode (lt_of_le_of_lt h.payload ?_)
    unfold maxFrameLen
    norm_num
  have hcrc : Bytes.decode (Bytes.encode 4 f.checksum) = f.checksum :=
    Bytes.decode_encode f.checksum_lt
  simp [FrameHeader.ofBytes, Frame.header, Frame.fields, List.drop_append,
    List.drop_of_length_le, List.take_of_length_le, hseq, helapsed, hlength, hcrc]

theorem checksumMatches_header {i : Nat} {f : Frame} (h : f.Valid i) :
    checksumMatches f.header f.payload := by
  unfold checksumMatches
  rw [FrameHeader.ofBytes_header h]
  simp [Frame.header, Frame.checksum]

theorem readFrame_encode {i : Nat} {f : Frame} (h : f.Valid i) (rest : List UInt8) :
    readFrame i (f.encode ++ rest) = .ok (some (f, rest)) := by
  have hguard : ¬ (maxFrameLen < f.payload.length ∨ f.sequence ≠ i) := by
    rintro (hlong | hnumber)
    · exact absurd h.payload (not_le.mpr hlong)
    · exact hnumber h.sequence
  unfold readFrame
  rw [Frame.encode, List.append_assoc, Bytes.readExact_append f.length_header]
  dsimp only
  rw [FrameHeader.ofBytes_header h]
  dsimp only
  rw [Channel.ofCode_code]
  dsimp only
  rw [if_neg hguard, Bytes.readExact_append rfl]
  dsimp only
  rw [if_pos (checksumMatches_header h)]

theorem readFrame_take {i : Nat} {f : Frame} (h : f.Valid i) {n : Nat} (hn : n < f.encode.length) :
    readFrame i (f.encode.take n) = .ok none ∨
      readFrame i (f.encode.take n) = .error (.io .unexpectedEof) := by
  rw [Frame.length_encode] at hn
  unfold readFrame
  by_cases hheader : n < frameHeaderLen
  · -- within the header
    left
    rw [Bytes.readExact_eq_none.mpr (by rw [List.length_take]; omega)]
  -- within the payload
  right
  have hguard : ¬ (maxFrameLen < f.payload.length ∨ f.sequence ≠ i) := by
    rintro (hlong | hnumber)
    · exact absurd h.payload (not_le.mpr hlong)
    · exact hnumber h.sequence
  have htake : f.encode.take n = f.header ++ f.payload.take (n - frameHeaderLen) := by
    rw [Frame.encode, List.take_append, List.take_of_length_le (by simp; omega),
      Frame.length_header]
  rw [htake, Bytes.readExact_append f.length_header]
  dsimp only
  rw [FrameHeader.ofBytes_header h]
  dsimp only
  rw [Channel.ofCode_code]
  dsimp only
  rw [if_neg hguard, Bytes.readExact_eq_none.mpr (by rw [List.length_take]; omega)]

/-- The first four fields of a header make up its first 21 bytes. -/
theorem FrameHeader.take_eq {header : List UInt8} (h : header.length = frameHeaderLen) :
    header.take 21 = (FrameHeader.ofBytes header).channel
      :: (Bytes.encode 8 (FrameHeader.ofBytes header).sequence
        ++ (Bytes.encode 8 (FrameHeader.ofBytes header).elapsed
        ++ Bytes.encode 4 (FrameHeader.ofBytes header).length)) := by
  unfold frameHeaderLen at h
  obtain ⟨b, rest, rfl⟩ : ∃ b rest, header = b :: rest := List.exists_cons_of_length_pos (by omega)
  rw [List.length_cons] at h
  simp only [FrameHeader.ofBytes, List.headD_cons, List.drop_succ_cons, List.drop_zero,
    List.take_succ_cons]
  rw [Bytes.encode_decode (by simp; omega), Bytes.encode_decode (by simp; omega),
    Bytes.encode_decode (by simp; omega)]
  congr 1
  calc rest.take (8 + (8 + 4))
      = rest.take 8 ++ (rest.drop 8).take (8 + 4) := List.take_add
    _ = rest.take 8 ++ ((rest.drop 8).take 8 ++ ((rest.drop 8).drop 8).take 4) := by
        rw [List.take_add]
    _ = rest.take 8 ++ ((rest.drop 8).take 8 ++ (rest.drop 16).take 4) := by rw [List.drop_drop]

/-- The last field of a header is the rest of it. -/
theorem FrameHeader.drop_eq {header : List UInt8} (h : header.length = frameHeaderLen) :
    header.drop 21 = Bytes.encode 4 (FrameHeader.ofBytes header).crc := by
  unfold frameHeaderLen at h
  have hlast : (header.drop 21).length = 4 := by rw [List.length_drop, h]
  rw [FrameHeader.ofBytes, List.take_of_length_le (le_of_eq hlast), Bytes.encode_decode hlast]

theorem FrameHeader.fits {header : List UInt8} :
    (FrameHeader.ofBytes header).sequence < 256 ^ 8 ∧
      (FrameHeader.ofBytes header).elapsed < 256 ^ 8 := by
  have hle : ∀ l : List UInt8, Bytes.decode (l.take 8) < 256 ^ 8 := fun l =>
    lt_of_lt_of_le (Bytes.decode_lt _)
      (Nat.pow_le_pow_right (by norm_num) (List.length_take_le 8 l))
  exact ⟨hle _, hle _⟩

/-- The frame that a reader takes from a header and a payload is written back as these. -/
theorem encode_of_header {header payload : List UInt8} {channel : Channel}
    (hlength : header.length = frameHeaderLen)
    (hchannel : Channel.ofCode (FrameHeader.ofBytes header).channel = some channel)
    (hpayload : payload.length = (FrameHeader.ofBytes header).length)
    (hmatches : checksumMatches header payload) :
    Frame.encode ⟨channel, (FrameHeader.ofBytes header).sequence,
      (FrameHeader.ofBytes header).elapsed, payload⟩ = header ++ payload := by
  have hfields : Frame.fields ⟨channel, (FrameHeader.ofBytes header).sequence,
      (FrameHeader.ofBytes header).elapsed, payload⟩ = header.take 21 := by
    rw [FrameHeader.take_eq hlength, Frame.fields, hpayload, Channel.code_of_ofCode hchannel]
  have hchecksum : Frame.checksum ⟨channel, (FrameHeader.ofBytes header).sequence,
      (FrameHeader.ofBytes header).elapsed, payload⟩ = (FrameHeader.ofBytes header).crc := by
    rw [Frame.checksum, hfields]
    exact hmatches
  rw [Frame.encode, Frame.header, hfields, hchecksum, ← FrameHeader.drop_eq hlength,
    List.take_append_drop]

/-- **What a successful read has found**: the bytes of a valid frame. -/
theorem readFrame_sound {i : Nat} {bytes rest : List UInt8} {f : Frame}
    (h : readFrame i bytes = .ok (some (f, rest))) : f.Valid i ∧ bytes = f.encode ++ rest := by
  unfold readFrame at h
  split at h
  · cases h
  next header rest₁ hheader =>
  obtain ⟨hlength, rfl⟩ := Bytes.readExact_eq_some hheader
  dsimp only at h
  split at h
  · cases h
  next channel hchannel =>
  split at h
  · cases h
  next hguard =>
  split at h
  · cases h
  next payload rest₂ hread =>
  obtain ⟨hpayload, rfl⟩ := Bytes.readExact_eq_some hread
  split at h
  · next hmatches =>
    cases h
    push Not at hguard
    exact ⟨⟨hguard.2, hguard.2 ▸ FrameHeader.fits.1, FrameHeader.fits.2,
      hpayload ▸ hguard.1⟩, by
        rw [encode_of_header hlength hchannel hpayload hmatches,
          List.append_assoc]⟩
  · cases h

/-- The next frame, whatever the reason when there is none. -/
def nextFrame? (i : Nat) (bytes : List UInt8) : Option (Frame × List UInt8) :=
  match readFrame i bytes with
  | .ok next => next
  | .error _ => none

theorem nextFrame?_eq_some {i : Nat} {bytes : List UInt8} {x : Frame × List UInt8} :
    nextFrame? i bytes = some x ↔ readFrame i bytes = .ok (some x) := by
  unfold nextFrame?
  split
  · next next hnext => simp [hnext]
  · next e he => simp [he]

/-- **Frames form a log.** -/
def frameCodec : Framing.Codec Frame UInt8 where
  encode := Frame.encode
  next := nextFrame?
  Valid i f := f.Valid i
  encode_ne_nil f := by
    rw [← List.length_pos_iff, Frame.length_encode]
    unfold frameHeaderLen
    omega
  next_encode h rest := nextFrame?_eq_some.mpr (readFrame_encode h rest)
  next_take h n hn := by
    unfold nextFrame?
    rcases readFrame_take h hn with heq | heq
    · rw [heq]
    · rw [heq]
  next_sound h := readFrame_sound (nextFrame?_eq_some.mp h)

end Locron
