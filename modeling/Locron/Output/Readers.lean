import Locron.Lib.Fallible
import Locron.Output.Format

set_option autoImplicit false

/-! # The two readers of output files

The engine and the store read output files with code of their own. The log commands scan a file with
the engine's `scanValidFrames`; the log stream of the dashboard and the recovery after a crash use
the store's `readFrame`. Both stop at the first frame that is incomplete or invalid, and both repair
a file by cutting it there, but the engine rejects a file whose next header has an unknown channel
(`readers_agree_iff`).
-/

namespace Locron

/-- The content of a file; the length of a file is a 64-bit number. -/
@[ext] structure OutputFile where
  bytes : List UInt8
  bounded : bytes.length ≤ u64Max

namespace OutputFile

def setLen (file : OutputFile) (len : Nat) : OutputFile :=
  ⟨file.bytes.take len, le_trans (List.length_take_le' len file.bytes) file.bounded⟩

def Headed (file : OutputFile) : Prop := file.bytes.take 8 = outputMagic

instance (file : OutputFile) : Decidable file.Headed := inferInstanceAs (Decidable (_ = _))

/-- The frames up to the first one that is incomplete or invalid. -/
def frames (file : OutputFile) : List Frame :=
  (frameCodec.parse ((file.bytes.drop 8).length + 1) 0 (file.bytes.drop 8)).1

/-- What follows these frames. -/
def tail (file : OutputFile) : List UInt8 :=
  (frameCodec.parse ((file.bytes.drop 8).length + 1) 0 (file.bytes.drop 8)).2

def validLen (file : OutputFile) : Nat := 8 + (frameCodec.encodeAll file.frames).length

end OutputFile

def payloadBytes (frames : List Frame) : Nat := (frames.map (fun f => f.payload.length)).sum

@[simp] theorem payloadBytes_nil : payloadBytes [] = 0 := rfl

@[simp] theorem payloadBytes_cons (f : Frame) (frames : List Frame) :
    payloadBytes (f :: frames) = f.payload.length + payloadBytes frames := rfl

theorem length_encodeAll_cons (f : Frame) (frames : List Frame) :
    (frameCodec.encodeAll (f :: frames)).length
      = frameHeaderLen + f.payload.length + (frameCodec.encodeAll frames).length := by
  rw [Framing.Codec.encodeAll_cons, List.length_append]
  exact congrArg (· + _) f.length_encode

/-- Counters of the writer and of the engine's repair. -/
structure OutputStats where
  retainedBytes : Nat := 0
  discardedBytes : Nat := 0
  physicalBytes : Nat := 0
  truncated : Bool := false
deriving DecidableEq, Repr

/-- The store's report on a repair. -/
structure OutputRepair where
  frames : Nat := 0
  payloadBytes : Nat := 0
  physicalBytes : Nat := 0
  tailRemoved : Nat := 0
deriving DecidableEq, Repr

/-- The bytes after the header of a file; the readers differ in the message. -/
def checkMagic (message : String) (bytes : List UInt8) : Except IoError (List UInt8) :=
  match Bytes.readExact 8 bytes with
  | none => .error .unexpectedEof
  | some (magic, rest) =>
    if magic = outputMagic then .ok rest else .error (.invalidData message)

/-! ## The store -/

def readMagic (bytes : List UInt8) : Except IoError (List UInt8) :=
  checkMagic "bad output header" bytes

/-- The loop of `readAvailableFrames`; a frame takes something of the file, so that fuel of more
than its length is enough. -/
def readAvailableLoop : Nat → Nat → List UInt8 → List Frame → Except IoError (List Frame)
  | 0, _, _, frames => .ok frames
  | fuel + 1, next, bytes, frames =>
    match readFrame next bytes with
    | .ok (some (frame, rest)) => readAvailableLoop fuel (next + 1) rest (frames ++ [frame])
    | .ok none => .ok frames
    | .error error =>
      match error.intoIo with
      | .unexpectedEof => .ok frames
      | .invalidData _ => .ok frames
      | error => .error error

/-- The frames that the log stream of the dashboard finds in a file. -/
def readAvailableFrames (file : OutputFile) : Except IoError (List Frame) :=
  match readMagic file.bytes with
  | .error error => .error error
  | .ok rest => readAvailableLoop (rest.length + 1) 0 rest []

/-- The loop of `repairPartial`; `valid` is the length of the file up to the next frame. -/
def repairLoop : Nat → Nat → Nat → List UInt8 → OutputRepair → Except IoError OutputRepair
  | 0, _, _, _, repair => .ok repair
  | fuel + 1, next, valid, bytes, repair =>
    match readFrame next bytes with
    | .ok (some (frame, rest)) =>
      let valid := valid + (frameHeaderLen + frame.payload.length)
      repairLoop fuel (next + 1) valid rest
        { repair with
          frames := repair.frames + 1
          payloadBytes := repair.payloadBytes + frame.payload.length
          physicalBytes := valid }
    | .ok none => .ok repair
    | .error (.invalidFrame _) => .ok repair
    | .error (.io .unexpectedEof) => .ok repair
    | .error (.io error) => .error error

/-- Cuts a file after its last complete frame. -/
def repairPartial (file : OutputFile) : Except IoError (OutputRepair × OutputFile) :=
  let original := file.bytes.length
  match readMagic file.bytes with
  | .error error => .error error
  | .ok rest =>
    match repairLoop (rest.length + 1) 0 8 rest { physicalBytes := 8 } with
    | .error error => .error error
    | .ok repair =>
      if repair.physicalBytes > original then
        .error (.invalidData "output file length changed during repair")
      else
        .ok ({ repair with tailRemoved := original - repair.physicalBytes },
          file.setLen repair.physicalBytes)

/-! ## The engine -/

namespace Engine

/-- One round of the scan: the next frame, nothing where the scan ends, or an error. -/
def scanStep (next : Nat) (bytes : List UInt8) : Except IoError (Option (Frame × List UInt8)) :=
  match Bytes.readExact frameHeaderLen bytes with
  | none => .ok none
  | some (header, rest) =>
    let h := FrameHeader.ofBytes header
    match Channel.ofCode h.channel with
    | none => .error (.invalidData "unknown output channel")
    | some channel =>
      if maxFrameLen < h.length then .ok none
      else
        match Bytes.readExact h.length rest with
        | none => .ok none
        | some (payload, rest) =>
          if ¬ checksumMatches header payload ∨ h.sequence ≠ next then .ok none
          else .ok (some (⟨channel, h.sequence, h.elapsed, payload⟩, rest))

/-- What a scan has found so far. -/
structure Scan where
  frames : List Frame := []
  validLen : Nat := 8
  retainedBytes : Nat := 0
deriving DecidableEq, Repr

def scanLoop : Nat → Nat → List UInt8 → Scan → Except IoError Scan
  | 0, _, _, scan => .ok scan
  | fuel + 1, next, bytes, scan =>
    match scanStep next bytes with
    | .error error => .error error
    | .ok none => .ok scan
    | .ok (some (frame, rest)) =>
      if u64Max < next + 1 then .error (.invalidData "output frame count overflow")
      else if u64Max < scan.retainedBytes + frame.payload.length then
        .error (.invalidData "output payload count overflow")
      else if u64Max < scan.validLen + (frameHeaderLen + frame.payload.length) then
        .error (.invalidData "output file length overflow")
      else
        scanLoop fuel (next + 1) rest
          { frames := scan.frames ++ [frame]
            validLen := scan.validLen + (frameHeaderLen + frame.payload.length)
            retainedBytes := scan.retainedBytes + frame.payload.length }

def scanValidFrames (file : OutputFile) : Except IoError Scan :=
  match checkMagic "invalid output magic" file.bytes with
  | .error error => .error error
  | .ok rest => scanLoop (rest.length + 1) 0 rest {}

/-- The frames that the log commands find in a file. -/
def readFrames (file : OutputFile) : Except IoError (List Frame) :=
  match scanValidFrames file with
  | .error error => .error error
  | .ok scan => .ok scan.frames

/-- Cuts a file after its last complete frame. -/
def repairPartial (file : OutputFile) : Except IoError (OutputStats × OutputFile) :=
  let original := file.bytes.length
  match scanValidFrames file with
  | .error error => .error error
  | .ok scan =>
    if scan.validLen > original then
      .error (.invalidData "output file length changed during repair")
    else
      .ok ({ retainedBytes := scan.retainedBytes, physicalBytes := scan.validLen },
        file.setLen scan.validLen)

end Engine

/-! ## What the readers find -/

theorem checkMagic_of_headed {file : OutputFile} (h : file.Headed) (message : String) :
    checkMagic message file.bytes = .ok (file.bytes.drop 8) := by
  have hlength : (file.bytes.take 8).length = 8 := congrArg List.length h
  have hread : Bytes.readExact 8 file.bytes = some (outputMagic, file.bytes.drop 8) := by
    conv_lhs => rw [← List.take_append_drop 8 file.bytes]
    rw [Bytes.readExact_append hlength, show file.bytes.take 8 = outputMagic from h]
  unfold checkMagic
  rw [hread]
  exact if_pos rfl

theorem checkMagic_of_not_headed {file : OutputFile} (h : ¬ file.Headed) (message : String) :
    ∃ error, checkMagic message file.bytes = .error error := by
  unfold checkMagic
  split
  · exact ⟨_, rfl⟩
  next magic rest hread =>
  obtain ⟨hlength, hbytes⟩ := Bytes.readExact_eq_some hread
  have hmagic : magic ≠ outputMagic := by
    intro heq
    apply h
    rw [OutputFile.Headed, hbytes, ← hlength, List.take_left, heq]
  exact ⟨_, if_neg hmagic⟩

/-- A read gives a frame of the log, or ends in one of three ways. -/
theorem readFrame_cases (i : Nat) (bytes : List UInt8) :
    (∃ f rest, readFrame i bytes = .ok (some (f, rest)) ∧
      frameCodec.next i bytes = some (f, rest)) ∨
    (frameCodec.next i bytes = none ∧ (readFrame i bytes = .ok none ∨
      readFrame i bytes = .error (.io .unexpectedEof) ∨
      ∃ message, readFrame i bytes = .error (.invalidFrame message))) := by
  have hnext : frameCodec.next i bytes = nextFrame? i bytes := rfl
  rw [hnext]
  unfold nextFrame?
  cases hread : readFrame i bytes with
  | ok next =>
    cases next with
    | none => exact Or.inr ⟨rfl, Or.inl rfl⟩
    | some x => exact Or.inl ⟨x.1, x.2, rfl, rfl⟩
  | error error =>
    refine Or.inr ⟨rfl, Or.inr ?_⟩
    unfold readFrame at hread
    split at hread
    · cases hread
    dsimp only at hread
    split at hread
    · cases hread
      exact Or.inr ⟨_, rfl⟩
    split at hread
    · cases hread
      exact Or.inr ⟨_, rfl⟩
    split at hread
    · cases hread
      exact Or.inl rfl
    split at hread
    · cases hread
    · cases hread
      exact Or.inr ⟨_, rfl⟩

theorem readAvailableLoop_eq (fuel next : Nat) (bytes : List UInt8) (frames : List Frame) :
    readAvailableLoop fuel next bytes frames
      = .ok (frames ++ (frameCodec.parse fuel next bytes).1) := by
  induction fuel generalizing next bytes frames with
  | zero => exact congrArg Except.ok (List.append_nil frames).symm
  | succ fuel ih =>
    unfold readAvailableLoop
    rcases readFrame_cases next bytes with ⟨f, rest, hread, hnext⟩ | ⟨hnext, hread⟩
    · rw [hread, frameCodec.parse_of_some hnext]
      dsimp only
      rw [ih, List.append_assoc, List.singleton_append]
    rw [frameCodec.parse_of_none hnext, List.append_nil]
    rcases hread with hread | hread | ⟨message, hread⟩
    · rw [hread]
    · rw [hread]
      rfl
    · rw [hread]
      rfl

theorem repairLoop_eq (fuel next valid frames payload : Nat) (bytes : List UInt8) :
    repairLoop fuel next valid bytes ⟨frames, payload, valid, 0⟩
      = .ok ⟨frames + (frameCodec.parse fuel next bytes).1.length,
          payload + payloadBytes (frameCodec.parse fuel next bytes).1,
          valid + (frameCodec.encodeAll (frameCodec.parse fuel next bytes).1).length, 0⟩ := by
  induction fuel generalizing next valid frames payload bytes with
  | zero => rfl
  | succ fuel ih =>
    unfold repairLoop
    rcases readFrame_cases next bytes with ⟨f, rest, hread, hnext⟩ | ⟨hnext, hread⟩
    · rw [hread, frameCodec.parse_of_some hnext]
      dsimp only
      rw [ih, length_encodeAll_cons, payloadBytes_cons, List.length_cons]
      simp only [Except.ok.injEq, OutputRepair.mk.injEq, and_true]
      omega
    · rw [frameCodec.parse_of_none hnext]
      rcases hread with hread | hread | ⟨message, hread⟩
      · rw [hread]
        rfl
      · rw [hread]
        rfl
      · rw [hread]
        rfl

/-- A whole header follows, but with a channel that does not exist. -/
def unknownChannel (bytes : List UInt8) : Prop :=
  frameHeaderLen ≤ bytes.length ∧ Channel.ofCode (bytes.headD 0) = none

instance (bytes : List UInt8) : Decidable (unknownChannel bytes) :=
  inferInstanceAs (Decidable (_ ∧ _))

namespace Engine

/-- **A round of the scan compared with a read of the store**: they find the same frames, and where
there is none the scan ends, unless it meets an unknown channel. -/
theorem scanStep_eq (next : Nat) (bytes : List UInt8) :
    scanStep next bytes =
      match frameCodec.next next bytes with
      | some x => .ok (some x)
      | none =>
        if unknownChannel bytes then .error (.invalidData "unknown output channel")
        else .ok none := by
  show _ = match nextFrame? next bytes with | some x => _ | none => _
  unfold scanStep nextFrame? readFrame
  cases hread : Bytes.readExact frameHeaderLen bytes with
  | none =>
    have hshort : ¬ unknownChannel bytes := fun h =>
      absurd h.1 (not_le.mpr (Bytes.readExact_eq_none.mp hread))
    exact (if_neg hshort).symm
  | some x =>
    obtain ⟨header, rest⟩ := x
    obtain ⟨hlength, rfl⟩ := Bytes.readExact_eq_some hread
    have hknown : unknownChannel (header ++ rest) ↔
        Channel.ofCode (FrameHeader.ofBytes header).channel = none := by
      have hfirst : (header ++ rest).headD 0 = (FrameHeader.ofBytes header).channel := by
        cases header with
        | nil => exact absurd hlength (by decide)
        | cons b header => rfl
      rw [unknownChannel, hfirst, List.length_append, hlength]
      simp
    dsimp only
    cases hchannel : Channel.ofCode (FrameHeader.ofBytes header).channel with
    | none => exact (if_pos (hknown.mpr hchannel)).symm
    | some channel =>
      have hvalid : ¬ unknownChannel (header ++ rest) := fun h => by
        rw [hknown.mp h] at hchannel
        cases hchannel
      -- the checks come in different orders, but the same ones must hold
      by_cases hlong : maxFrameLen < (FrameHeader.ofBytes header).length
      · simp [hlong, hvalid]
      cases hpayload : Bytes.readExact (FrameHeader.ofBytes header).length rest with
      | none => by_cases hnumber : (FrameHeader.ofBytes header).sequence = next <;>
          simp [hlong, hvalid, hnumber]
      | some y =>
        by_cases hnumber : (FrameHeader.ofBytes header).sequence = next <;>
          by_cases hmatches : checksumMatches header y.1 <;>
            simp [hlong, hvalid, hnumber, hmatches]

theorem scanLoop_eq {fuel next : Nat} {bytes : List UInt8} {scan : Scan}
    (hfuel : bytes.length < fuel) (hnext : next ≤ scan.validLen)
    (hretained : scan.retainedBytes ≤ scan.validLen)
    (hbounded : scan.validLen + bytes.length ≤ u64Max) :
    scanLoop fuel next bytes scan =
      if unknownChannel (frameCodec.parse fuel next bytes).2 then
        .error (.invalidData "unknown output channel")
      else
        .ok ⟨scan.frames ++ (frameCodec.parse fuel next bytes).1,
          scan.validLen + (frameCodec.encodeAll (frameCodec.parse fuel next bytes).1).length,
          scan.retainedBytes + payloadBytes (frameCodec.parse fuel next bytes).1⟩ := by
  induction fuel generalizing next bytes scan with
  | zero => exact absurd hfuel (Nat.not_lt_zero _)
  | succ fuel ih =>
    unfold scanLoop
    rw [scanStep_eq]
    cases hread : frameCodec.next next bytes with
    | none =>
      rw [frameCodec.parse_of_none hread]
      dsimp only
      by_cases hunknown : unknownChannel bytes
      · rw [if_pos hunknown, if_pos hunknown]
      · rw [if_neg hunknown, if_neg hunknown]
        simp [Framing.Codec.encodeAll]
    | some x =>
      obtain ⟨f, rest⟩ := x
      have hlength : bytes.length = frameHeaderLen + f.payload.length + rest.length := by
        rw [(frameCodec.next_sound hread).2, List.length_append]
        exact congrArg (· + _) f.length_encode
      have hheader : frameHeaderLen = 25 := rfl
      rw [frameCodec.parse_of_some hread]
      dsimp only
      rw [if_neg (by omega), if_neg (by omega), if_neg (by omega),
        ih (by omega) (by dsimp only; omega) (by dsimp only; omega) (by dsimp only; omega)]
      dsimp only
      rw [length_encodeAll_cons, payloadBytes_cons, List.append_assoc, List.singleton_append,
        Nat.add_assoc scan.retainedBytes, Nat.add_assoc scan.validLen]

end Engine

namespace OutputFile

variable {file : OutputFile}

theorem bytes_eq (h : file.Headed) :
    file.bytes = outputMagic ++ (frameCodec.encodeAll file.frames ++ file.tail) := by
  have hparse := (frameCodec.parse_sound ((file.bytes.drop 8).length + 1) 0
    (file.bytes.drop 8)).2
  calc file.bytes
      = file.bytes.take 8 ++ file.bytes.drop 8 := (List.take_append_drop 8 file.bytes).symm
    _ = outputMagic ++ file.bytes.drop 8 := by rw [show file.bytes.take 8 = outputMagic from h]
    _ = outputMagic ++ (frameCodec.encodeAll file.frames ++ file.tail) :=
        congrArg (outputMagic ++ ·) hparse

theorem validLen_le (h : file.Headed) : file.validLen ≤ file.bytes.length := by
  have hlength := congrArg List.length (bytes_eq h)
  rw [List.length_append, List.length_append, show outputMagic.length = 8 from rfl] at hlength
  unfold validLen
  omega

end OutputFile

/-! ## Agreement -/

theorem readAvailableFrames_eq {file : OutputFile} (h : file.Headed) :
    readAvailableFrames file = .ok file.frames := by
  unfold readAvailableFrames readMagic
  rw [checkMagic_of_headed h]
  exact readAvailableLoop_eq _ 0 _ []

/-- **The store's repair** keeps exactly the frames up to the first incomplete or invalid one. -/
theorem repairPartial_eq {file : OutputFile} (h : file.Headed) :
    repairPartial file = .ok (⟨file.frames.length, payloadBytes file.frames, file.validLen,
      file.bytes.length - file.validLen⟩, file.setLen file.validLen) := by
  have hloop : repairLoop ((file.bytes.drop 8).length + 1) 0 8 (file.bytes.drop 8)
      { physicalBytes := 8 }
        = .ok ⟨file.frames.length, payloadBytes file.frames, file.validLen, 0⟩ := by
    rw [repairLoop_eq, Nat.zero_add, Nat.zero_add]
    rfl
  unfold repairPartial readMagic
  rw [checkMagic_of_headed h]
  dsimp only
  rw [hloop]
  exact if_neg (not_lt.mpr (OutputFile.validLen_le h))

theorem Engine.scanValidFrames_eq {file : OutputFile} (h : file.Headed) :
    Engine.scanValidFrames file =
      if unknownChannel file.tail then .error (.invalidData "unknown output channel")
      else .ok ⟨file.frames, file.validLen, payloadBytes file.frames⟩ := by
  have hbounded : 8 + (file.bytes.drop 8).length ≤ u64Max := by
    have hle := OutputFile.validLen_le h
    have hfile := file.bounded
    rw [List.length_drop]
    unfold OutputFile.validLen at hle
    omega
  unfold Engine.scanValidFrames
  rw [checkMagic_of_headed h]
  dsimp only
  rw [Engine.scanLoop_eq (Nat.lt_succ_self _) (Nat.zero_le _) (Nat.zero_le _) hbounded,
    Nat.zero_add]
  rfl

/-- Both readers reject the file, or both return its frames up to the first incomplete or invalid
one. -/
def ReadersAgree (file : OutputFile) : Prop :=
  Except.Agree (fun frames frames' => frames = frames' ∧ frames = file.frames)
    (Engine.readFrames file) (readAvailableFrames file)

/-- Both repairs reject the file, or both cut it to the same length and report the same payload. -/
def RepairsAgree (file : OutputFile) : Prop :=
  Except.Agree
    (fun engine store => engine.2.bytes.length = store.2.bytes.length ∧
      engine.1.physicalBytes = store.1.physicalBytes ∧
      engine.1.retainedBytes = store.1.payloadBytes)
    (Engine.repairPartial file) (repairPartial file)

instance (file : OutputFile) : Decidable (ReadersAgree file) :=
  inferInstanceAs (Decidable (Except.Agree ..))

instance (file : OutputFile) : Decidable (RepairsAgree file) :=
  inferInstanceAs (Decidable (Except.Agree ..))

theorem readers_reject {file : OutputFile} (h : ¬ file.Headed) :
    ReadersAgree file ∧ RepairsAgree file := by
  obtain ⟨e, hengine⟩ := checkMagic_of_not_headed h "invalid output magic"
  obtain ⟨e', hstore⟩ := checkMagic_of_not_headed h "bad output header"
  constructor
  · unfold ReadersAgree Engine.readFrames Engine.scanValidFrames readAvailableFrames readMagic
    rw [hengine, hstore]
    trivial
  · unfold RepairsAgree Engine.repairPartial Engine.scanValidFrames repairPartial readMagic
    rw [hengine, hstore]
    trivial

/-- **When the readers agree**: for a file with the right header exactly if its frames are not
followed by a whole header with an unknown channel. -/
theorem readers_agree_iff (file : OutputFile) :
    (ReadersAgree file ∧ RepairsAgree file) ↔ (file.Headed → ¬ unknownChannel file.tail) := by
  by_cases h : file.Headed
  · have hscan := Engine.scanValidFrames_eq h
    by_cases hunknown : unknownChannel file.tail
    · -- the scan fails, the reads of the store do not
      rw [if_pos hunknown] at hscan
      have hdiffer : ¬ ReadersAgree file := by
        unfold ReadersAgree Engine.readFrames
        rw [hscan, readAvailableFrames_eq h]
        exact id
      exact ⟨fun hagree => absurd hagree.1 hdiffer, fun hcond => absurd hunknown (hcond h)⟩
    · rw [if_neg hunknown] at hscan
      refine ⟨fun _ _ => hunknown, fun _ => ⟨?_, ?_⟩⟩
      · unfold ReadersAgree Engine.readFrames
        rw [hscan, readAvailableFrames_eq h]
        exact ⟨rfl, rfl⟩
      · unfold RepairsAgree Engine.repairPartial
        rw [hscan, repairPartial_eq h]
        dsimp only
        rw [if_neg (not_lt.mpr (OutputFile.validLen_le h))]
        exact ⟨rfl, rfl, rfl⟩
  · exact ⟨fun _ hheaded => absurd hheaded h, fun _ => readers_reject h⟩

/-- A file whose last write reserved space that was never filled. -/
def zeroTail : OutputFile := ⟨outputMagic ++ List.replicate 25 0, by decide⟩

/-- **The engine rejects zeros** where the store finds the end of the frames. -/
theorem zero_tail_disagrees :
    ¬ ReadersAgree zeroTail ∧ ¬ RepairsAgree zeroTail ∧
    Engine.readFrames zeroTail = .error (.invalidData "unknown output channel") ∧
    readAvailableFrames zeroTail = .ok [] := by
  decide +kernel

end Locron
