import Locron.Lib.Bytes
import Locron.Lib.Fallible
import Locron.Lib.Pieces

set_option autoImplicit false

/-! # The journal of a maintenance transaction

The records of a transaction are appended to a file, each in a frame with its length, the digest of
the frame before it and a digest of its own. The limits of the file are checked when frames are
reserved; an append only looks at what is left of the reservation. So the limits are an invariant of
all sequences of reservations and appends (`Journal.Sound`).
-/

namespace Locron

inductive JournalError where
  | refused (message : String)
  /-- the record has no JSON text, or the text is no record -/
  | json
  /-- the record is not accepted as successor of the last one -/
  | invalid
  /-- a write or a flush failed -/
  | uncertain
deriving DecidableEq, Repr

/-- What the caller of the journal supplies: the JSON texts of records, the check of a record
against its predecessor, and a digest of 32 bytes. Records survive the round trip through their
text. -/
structure RecordFormat (R : Type) where
  toText : R → Option (List UInt8)
  ofText : List UInt8 → Option R
  validate : R → Option R → Bool
  digest : List UInt8 → List UInt8
  ofText_toText : ∀ {r text}, toText r = some text → ofText text = some r
  /-- the empty text is no JSON -/
  ofText_nil : ofText [] = none
  length_digest : ∀ bytes, (digest bytes).length = 32

namespace Journal

def frameLimit : Nat := 128 * 1024

def journalLimit : Nat := 16 * 1024 * 1024

def frameCount : Nat := 128

def header : Nat := 4 + 32

def overhead : Nat := header + 32

/-- The digest before the first frame. -/
def noDigest : List UInt8 := List.replicate 32 0

/-! ## Frames -/

/-- The records read or written so far. -/
structure Chain (R : Type) where
  records : List R
  lastDigest : List UInt8
  byteLen : Nat

def Chain.empty {R : Type} : Chain R := ⟨[], noDigest, 0⟩

/-- The chain with one more frame. -/
def Chain.push {R : Type} (chain : Chain R) (record : R) (bytes digest : List UInt8) : Chain R :=
  ⟨chain.records ++ [record], digest, chain.byteLen + bytes.length⟩

section Format

variable {R : Type} (format : RecordFormat R)

/-- Length, previous digest and payload: what the digest of a frame covers. -/
def body (previous payload : List UInt8) : List UInt8 :=
  Bytes.encode 4 (payload.length + overhead) ++ previous ++ payload

def frame (record : R) (previous : List UInt8) :
    Except JournalError (List UInt8 × List UInt8) :=
  match format.toText record with
  | none => .error .json
  | some payload =>
    if frameLimit - overhead < payload.length then
      .error (.refused "journal payload exceeds its finite bound")
    else if frameLimit < payload.length + overhead then
      .error (.refused "journal frame exceeds its finite bound")
    else
      let digest := format.digest (body previous payload)
      .ok (body previous payload ++ digest, digest)

def decodeFrame (chain : Chain R) (bytes : List UInt8) :
    Except JournalError (Chain R × List UInt8) :=
  if frameCount ≤ chain.records.length then
    .error (.refused "journal exceeds its finite frame count")
  else
    match Bytes.readExact 4 bytes with
    | none => .error (.refused "journal has a partial frame length")
    | some (lengthBytes, _) =>
      let length := Bytes.decode lengthBytes
      if ¬ (overhead + 1 ≤ length ∧ length ≤ frameLimit) then
        .error (.refused "invalid journal frame length")
      else
        match Bytes.readExact length bytes with
        | none => .error (.refused "journal has a partial final frame")
        | some (current, rest) =>
          if (current.drop 4).take 32 ≠ chain.lastDigest then
            .error (.refused "journal digest chain is broken")
          else
            let digest := format.digest (current.take (length - 32))
            if current.drop (length - 32) ≠ digest then
              .error (.refused "journal frame checksum differs")
            else
              match format.ofText ((current.take (length - 32)).drop header) with
              | none => .error .json
              | some record =>
                if format.validate record chain.records.getLast? then
                  .ok (chain.push record current digest, rest)
                else .error .invalid

/-- A frame that reads as the given record after the given digest. -/
def Reads (previous : List UInt8) (record : R) (bytes digest : List UInt8) : Prop :=
  ∃ payload, format.ofText payload = some record ∧ payload.length + overhead ≤ frameLimit ∧
    digest = format.digest (body previous payload) ∧ bytes = body previous payload ++ digest

variable {format} {chain chain' : Chain R} {previous bytes digest rest l : List UInt8} {record : R}

theorem length_body (payload : List UInt8) (h : previous.length = 32) :
    (body previous payload).length = header + payload.length := by
  simp [body, h, header]
  omega

/-- What is written reads back. -/
theorem reads_of_frame (h : frame format record previous = .ok (bytes, digest)) :
    Reads format previous record bytes digest := by
  unfold frame at h
  split at h
  · cases h
  next payload htext =>
  obtain ⟨-, h⟩ := Except.guard_eq_ok.mp h
  obtain ⟨hsize, h⟩ := Except.guard_eq_ok.mp h
  cases h
  exact ⟨payload, format.ofText_toText htext, not_lt.mp hsize, rfl, rfl⟩

theorem Reads.length (h : Reads format previous record bytes digest)
    (hprevious : previous.length = 32) :
    overhead + 1 ≤ bytes.length ∧ bytes.length ≤ frameLimit ∧ digest.length = 32 := by
  obtain ⟨payload, htext, hsize, rfl, rfl⟩ := h
  have hne : payload ≠ [] := by
    rintro rfl
    rw [format.ofText_nil] at htext
    cases htext
  have hpos := List.length_pos_iff.mpr hne
  rw [List.length_append, length_body payload hprevious, format.length_digest]
  unfold overhead at hsize ⊢
  omega

theorem decodeFrame_append (hcount : chain.records.length < frameCount)
    (hprevious : chain.lastDigest.length = 32)
    (hreads : Reads format chain.lastDigest record bytes digest)
    (hvalid : format.validate record chain.records.getLast? = true) (rest : List UInt8) :
    decodeFrame format chain (bytes ++ rest) = .ok (chain.push record bytes digest, rest) := by
  obtain ⟨hmin, hmax, hdigest⟩ := hreads.length hprevious
  obtain ⟨payload, htext, hsize, hcovers, hbytes⟩ := hreads
  have hbody := length_body payload hprevious
  have hlength : bytes.length = payload.length + overhead := by
    rw [hbytes, List.length_append, hbody, hdigest, overhead]
    omega
  have hfirst : bytes ++ rest = Bytes.encode 4 (payload.length + overhead)
      ++ (chain.lastDigest ++ payload ++ digest ++ rest) := by
    simp only [hbytes, body, List.append_assoc]
  have hinitial : Bytes.readExact 4 (bytes ++ rest) = some
    (Bytes.encode 4 (payload.length + overhead),
      chain.lastDigest ++ payload ++ digest ++ rest) := by
    rw [hfirst]
    exact Bytes.readExact_append (Bytes.length_encode ..) _
  have hdecode : Bytes.decode (Bytes.encode 4 (payload.length + overhead)) = bytes.length := by
    rw [hlength]
    refine Bytes.decode_encode ?_
    unfold frameLimit at hsize
    omega
  have hwhole : Bytes.readExact bytes.length (bytes ++ rest) = some (bytes, rest) :=
    Bytes.readExact_append rfl rest
  have hcut : bytes.length - 32 = (body chain.lastDigest payload).length := by
    rw [hbytes, List.length_append, hdigest]
    omega
  have htake : bytes.take (bytes.length - 32) = body chain.lastDigest payload := by
    rw [hcut, hbytes, List.take_left]
  have hdrop : bytes.drop (bytes.length - 32) = digest := by
    rw [hcut, hbytes, List.drop_left]
  have hchained : (bytes.drop 4).take 32 = chain.lastDigest := by
    have hafter : bytes.drop 4 = chain.lastDigest ++ (payload ++ digest) := by
      rw [hbytes, body, List.append_assoc, List.append_assoc,
        List.drop_left' (Bytes.length_encode ..)]
    rw [hafter, List.take_left' hprevious]
  have hpayload : (body chain.lastDigest payload).drop header = payload := by
    unfold body
    rw [List.drop_left']
    simp [hprevious, header]
  unfold decodeFrame
  rw [if_neg (not_le.mpr hcount), hinitial]
  dsimp only
  rw [hdecode, if_neg (not_not.mpr ⟨hmin, hmax⟩), hwhole]
  dsimp only
  rw [if_neg (not_not.mpr hchained), htake, hdrop, if_neg (not_not.mpr hcovers), hpayload, htext]
  dsimp only
  rw [if_pos hvalid, hcovers]

/-- The part of a frame that its digest covers, put together from what is read of it. -/
theorem covered_eq_body {current lengthBytes : List UInt8}
    (hlength : current.length = Bytes.decode lengthBytes)
    (hmin : overhead + 1 ≤ Bytes.decode lengthBytes) (hstart : current.take 4 = lengthBytes)
    (hprevious : (current.drop 4).take 32 = previous) :
    current.take (Bytes.decode lengthBytes - 32) = body previous
      ((current.take (Bytes.decode lengthBytes - 32)).drop header) := by
  unfold overhead header at hmin
  have hfour : lengthBytes.length = 4 := by
    rw [← hstart, List.length_take]
    omega
  generalize hcovered : current.take (Bytes.decode lengthBytes - 32) = covered
  have hsize : (covered.drop header).length + overhead = Bytes.decode lengthBytes := by
    rw [← hcovered, List.length_drop, List.length_take]
    unfold overhead header
    omega
  have hhead : covered.take header = lengthBytes ++ previous := by
    rw [← hcovered, List.take_take, Nat.min_eq_left (by unfold header; omega)]
    show current.take (4 + 32) = _
    rw [List.take_add, hstart, hprevious]
  calc covered = covered.take header ++ covered.drop header := (List.take_append_drop ..).symm
    _ = body previous (covered.drop header) := by
      rw [hhead, body, hsize, Bytes.encode_decode hfour]

theorem decodeFrame_ok (h : decodeFrame format chain l = .ok (chain', rest)) :
    ∃ record bytes digest, chain.records.length < frameCount ∧ chain.lastDigest.length = 32 ∧
      Reads format chain.lastDigest record bytes digest ∧
      format.validate record chain.records.getLast? = true ∧ l = bytes ++ rest ∧
      Bytes.decode (bytes.take 4) = bytes.length ∧ chain' = chain.push record bytes digest := by
  unfold decodeFrame at h
  obtain ⟨hcount, h⟩ := Except.guard_eq_ok.mp h
  split at h
  · cases h
  next lengthBytes after hinitial =>
  obtain ⟨hfour, hl⟩ := Bytes.readExact_eq_some hinitial
  obtain ⟨hrange, h⟩ := Except.guard_eq_ok.mp h
  obtain ⟨hmin, hmax⟩ := not_not.mp hrange
  split at h
  · cases h
  next current rest₁ hwhole =>
  obtain ⟨hlength, hcut⟩ := Bytes.readExact_eq_some hwhole
  obtain ⟨hchained, h⟩ := Except.guard_eq_ok.mp h
  obtain ⟨hcovers, h⟩ := Except.guard_eq_ok.mp h
  split at h
  · cases h
  next record htext =>
  split at h
  · next hvalid =>
    cases h
    have hstart : current.take 4 = lengthBytes := by
      calc current.take 4 = (current ++ rest).take 4 :=
            (List.take_append_of_le_length (by unfold overhead header at hmin; omega)).symm
        _ = (lengthBytes ++ after).take 4 := by rw [← hcut, hl]
        _ = lengthBytes := List.take_left' hfour
    have hdigest : chain.lastDigest.length = 32 := by
      rw [← not_not.mp hchained, List.length_take, List.length_drop]
      unfold overhead header at hmin
      omega
    have hcovered := covered_eq_body hlength hmin hstart (not_not.mp hchained)
    refine ⟨record, current, _, not_le.mp hcount, hdigest, ⟨_, htext, ?_, ?_, ?_⟩, hvalid,
      hcut, by rw [hstart, hlength], rfl⟩
    · rw [List.length_drop, List.length_take]
      unfold overhead at hmin ⊢
      omega
    · rw [← hcovered]
    · rw [← hcovered, ← not_not.mp hcovers, List.take_append_drop]
  · cases h

/-- A part of a frame is refused: the length at its start is that of the whole frame. -/
theorem decodeFrame_take (h : decodeFrame format chain bytes = .ok (chain', [])) {n : Nat}
    (hn : n < bytes.length) : ∃ e, decodeFrame format chain (bytes.take n) = .error e := by
  cases hpart : decodeFrame format chain (bytes.take n) with
  | error e => exact ⟨e, rfl⟩
  | ok x =>
    obtain ⟨_, bytes₁, _, -, -, -, -, hbytes, hlength, -⟩ := decodeFrame_ok h
    obtain ⟨_, part, _, -, hprevious, hreads, -, htake, hpart, -⟩ := decodeFrame_ok hpart
    obtain ⟨hmin, -, -⟩ := hreads.length hprevious
    rw [List.append_nil] at hbytes
    subst hbytes
    have hlt : part.length ≤ n := by
      have := congrArg List.length htake
      rw [List.length_take, List.length_append] at this
      omega
    have hstart : part.take 4 = bytes.take 4 := by
      unfold overhead header at hmin
      calc part.take 4 = (part ++ x.2).take 4 :=
            (List.take_append_of_le_length (by omega)).symm
        _ = (bytes.take n).take 4 := by rw [htake]
        _ = bytes.take 4 := by rw [List.take_take, Nat.min_eq_left (by omega)]
    rw [hstart, hlength] at hpart
    omega

def scanner (format : RecordFormat R) : Pieces.Scanner (Chain R) UInt8 JournalError where
  next := decodeFrame format
  piece := by
    intro chain l chain' rest h
    obtain ⟨record, bytes, digest, hcount, hprevious, hreads, hvalid, hl, -, rfl⟩ :=
      decodeFrame_ok h
    obtain ⟨hmin, -, -⟩ := hreads.length hprevious
    refine ⟨bytes, List.ne_nil_of_length_pos (by omega), hl, ?_⟩
    exact decodeFrame_append hcount hprevious hreads hvalid
  torn := fun h _ hn => decodeFrame_take h hn
  exhausted := .refused "journal exceeds its finite byte bound"

/-- Reads a whole file. -/
def decode (format : RecordFormat R) (bytes : List UInt8) : Except JournalError (Chain R) :=
  if journalLimit < bytes.length then
    .error (.refused "journal exceeds its finite byte bound")
  else (scanner format).scan Chain.empty bytes

end Format

/-! ## Reservations -/

def checkBudget (existingFrames existingBytes frames maximumFrameBytes : Nat) :
    Except JournalError Unit :=
  if ¬ (0 < frames ∧ overhead + 1 ≤ maximumFrameBytes ∧ maximumFrameBytes ≤ frameLimit) then
    .error (.refused "invalid complete-operation reservation")
  else if frameCount < existingFrames + frames then
    .error (.refused "complete operation exceeds the journal frame budget")
  else if journalLimit < existingBytes + frames * maximumFrameBytes then
    .error (.refused "complete operation exceeds the journal byte budget")
  else .ok ()

theorem checkBudget_eq_ok {existingFrames existingBytes frames maximumFrameBytes : Nat}
    (h : checkBudget existingFrames existingBytes frames maximumFrameBytes = .ok ()) :
    (overhead + 1 ≤ maximumFrameBytes ∧ maximumFrameBytes ≤ frameLimit) ∧
      existingFrames + frames ≤ frameCount ∧
      existingBytes + frames * maximumFrameBytes ≤ journalLimit := by
  obtain ⟨hsize, h⟩ := Except.guard_eq_ok.mp h
  obtain ⟨hcount, h⟩ := Except.guard_eq_ok.mp h
  obtain ⟨hbytes, -⟩ := Except.guard_eq_ok.mp h
  exact ⟨(not_not.mp hsize).2, not_lt.mp hcount, not_lt.mp hbytes⟩

/-- Frames that may be appended. A reservation is only made by a preflight, and what is left of one
after an append is smaller, so an empty journal has room for it. -/
structure Reservation where
  frames : Nat
  maximumFrameBytes : Nat
  size : maximumFrameBytes ≤ frameLimit
  count : frames ≤ frameCount
  bytes : frames * maximumFrameBytes ≤ journalLimit

/-- The reservation after an append. -/
def Reservation.remaining (reservation : Reservation) : Reservation where
  frames := reservation.frames - 1
  maximumFrameBytes := reservation.maximumFrameBytes
  size := reservation.size
  count := (Nat.sub_le ..).trans reservation.count
  bytes := (Nat.mul_le_mul_right _ (Nat.sub_le ..)).trans reservation.bytes

section Machine

variable {R : Type} (format : RecordFormat R)

def preflightWithGrowth (worstCaseRecord : R) (frames additionalPayloadBytes : Nat) :
    Except JournalError Reservation :=
  match frame format worstCaseRecord noDigest with
  | .error e => .error e
  | .ok (bytes, _) =>
    match h : checkBudget 0 0 frames (bytes.length + additionalPayloadBytes) with
    | .error e => .error e
    | .ok () => .ok {
        frames
        maximumFrameBytes := bytes.length + additionalPayloadBytes
        size := (checkBudget_eq_ok h).1.2
        count := by simpa using (checkBudget_eq_ok h).2.1
        bytes := by simpa using (checkBudget_eq_ok h).2.2 }

def preflight (worstCaseRecord : R) (frames : Nat) : Except JournalError Reservation :=
  preflightWithGrowth format worstCaseRecord frames 0

/-! ## The open journal -/

/-- What becomes of a write and the flush after it. -/
inductive Write where
  | done
  /-- the write or the flush fails, with this many bytes of the frame in the file -/
  | torn (written : Nat)
deriving DecidableEq, Repr

/-- A journal that is open, with its file. -/
structure State (R : Type) where
  file : List UInt8
  chain : Chain R
  poisoned : Bool
  reservation : Option Reservation

def State.create (reservation : Reservation) : State R := ⟨[], .empty, false, some reservation⟩

def State.openFile (file : List UInt8) : Except JournalError (State R) :=
  if ¬ (0 < file.length ∧ file.length ≤ journalLimit) then
    .error (.refused "empty/oversized existing journal refuses recovery")
  else
    match decode format file with
    | .error e => .error e
    | .ok chain => .ok ⟨file, chain, false, none⟩

def State.reserve (state : State R) (reservation : Reservation) : Except JournalError (State R) :=
  if state.poisoned then .error (.refused "journal write outcome is uncertain")
  else
    match checkBudget state.chain.records.length state.chain.byteLen reservation.frames
        reservation.maximumFrameBytes with
    | .error e => .error e
    | .ok () => .ok { state with reservation := some reservation }

/-- An append fails with the journal unchanged, or poisoned if the outcome of the write is
unknown. -/
def State.append (state : State R) (record : R) (write : Write) :
    Except JournalError Unit × State R :=
  if state.poisoned then (.error (.refused "journal write outcome is uncertain"), state)
  else if ¬ format.validate record state.chain.records.getLast? then (.error .invalid, state)
  else
    match frame format record state.chain.lastDigest with
    | .error e => (.error e, state)
    | .ok (bytes, digest) =>
      match state.reservation with
      | none => (.error (.refused "complete remaining operation is not reserved"), state)
      | some reservation =>
        if ¬ (0 < reservation.frames ∧ bytes.length ≤ reservation.maximumFrameBytes) then
          (.error (.refused "journal append exceeds its preflight reservation"), state)
        else if state.file.length ≠ state.chain.byteLen then
          (.error .uncertain, { state with poisoned := true })
        else
          match write with
          | .torn written =>
            (.error .uncertain,
              { state with file := state.file ++ bytes.take written, poisoned := true })
          | .done =>
            (.ok (), {
              file := state.file ++ bytes
              chain := state.chain.push record bytes digest
              poisoned := false
              reservation := some reservation.remaining })

inductive Call (R : Type) where
  | reserve (reservation : Reservation)
  | append (record : R) (write : Write)

/-- The state of a journal, the records appended to it, and the last reservation that was accepted
with the number of records appended since. -/
structure Trace (R : Type) where
  state : State R
  appended : List R
  granted : Option (Reservation × Nat)

def Trace.advance (trace : Trace R) : Call R → Trace R
  | .reserve reservation =>
    match trace.state.reserve reservation with
    | .error _ => trace
    | .ok state => { trace with state, granted := some (reservation, 0) }
  | .append record write =>
    match trace.state.append format record write with
    | (.error _, state) => { trace with state }
    | (.ok (), state) => {
        state
        appended := trace.appended ++ [record]
        granted := trace.granted.map fun (reservation, count) => (reservation, count + 1) }

/-- How a journal comes to be open. -/
inductive Start where
  | create (reservation : Reservation)
  | openFile (file : List UInt8)

def Start.trace : Start → Except JournalError (Trace R)
  | .create reservation => .ok ⟨.create reservation, [], some (reservation, 0)⟩
  | .openFile file => (State.openFile format file).map (⟨·, [], none⟩)

/-- The journal after the given calls. -/
def run (trace : Trace R) (calls : List (Call R)) : Trace R :=
  calls.foldl (Trace.advance format) trace

/-! ## What the frames of a file add up to -/

variable {format} {chain chain' : Chain R} {frames : List (List UInt8)}

/-- A chain and the frames that lead from it to another one. -/
structure Extends (chain : Chain R) (frames : List (List UInt8)) (chain' : Chain R) : Prop where
  records : chain.records <+: chain'.records
  count : chain'.records.length = chain.records.length + frames.length
  byteLen : chain'.byteLen = chain.byteLen + frames.flatten.length
  bounded : chain.records.length ≤ frameCount → chain'.records.length ≤ frameCount
  digest : chain.lastDigest.length = 32 → chain'.lastDigest.length = 32
  lengths : ∀ bytes ∈ frames, Bytes.decode (bytes.take 4) = bytes.length

theorem extends_of_cuts (h : (scanner format).Cuts chain frames chain') :
    Extends chain frames chain' := by
  induction h with
  | nil chain =>
    exact ⟨List.prefix_rfl, rfl, rfl, id, id, fun _ h => absurd h (List.not_mem_nil)⟩
  | cons hbytes _ ih =>
    obtain ⟨record, bytes, digest, hcount, hprevious, hreads, -, heq, hlength, rfl⟩ :=
      decodeFrame_ok hbytes
    rw [List.append_nil] at heq
    subst heq
    refine ⟨(List.prefix_append ..).trans ih.records, ?_, ?_, fun _ => ih.bounded ?_,
      fun _ => ih.digest (hreads.length hprevious).2.2, ?_⟩
    · rw [ih.count, Chain.push, List.length_append, List.length_cons, List.length_cons,
        List.length_nil]
      omega
    · rw [ih.byteLen, List.flatten_cons, List.length_append]
      exact Nat.add_assoc ..
    · rw [Chain.push, List.length_append]
      exact hcount
    · rintro piece hpiece
      rcases List.mem_cons.mp hpiece with rfl | hpiece
      · exact hlength
      · exact ih.lengths piece hpiece

/-! ## Appends -/

variable {state : State R} {record : R} {write : Write} {bytes digest : List UInt8}
  {reservation : Reservation}

/-- Everything that an append checks before it writes. -/
structure Admitted (format : RecordFormat R) (state : State R) (record : R)
    (bytes digest : List UInt8) (reservation : Reservation) : Prop where
  live : state.poisoned = false
  valid : format.validate record state.chain.records.getLast? = true
  framed : frame format record state.chain.lastDigest = .ok (bytes, digest)
  reserved : state.reservation = some reservation
  left : 0 < reservation.frames
  fits : bytes.length ≤ reservation.maximumFrameBytes

/-- The state after the write of an admitted record to a file of the known length. -/
def State.written (state : State R) (record : R) (bytes digest : List UInt8)
    (reservation : Reservation) : Write → Except JournalError Unit × State R
  | .torn written =>
    (.error .uncertain,
      { state with file := state.file ++ bytes.take written, poisoned := true })
  | .done =>
    (.ok (), {
      file := state.file ++ bytes
      chain := state.chain.push record bytes digest
      poisoned := false
      reservation := some reservation.remaining })

theorem append_of_admitted (h : Admitted format state record bytes digest reservation)
    (hlength : state.file.length = state.chain.byteLen) :
    state.append format record write = state.written record bytes digest reservation write := by
  unfold State.append
  rw [if_neg (by rw [h.live]; exact Bool.false_ne_true), if_neg (not_not.mpr h.valid), h.framed]
  dsimp only
  rw [h.reserved]
  dsimp only
  rw [if_neg (not_not.mpr ⟨h.left, h.fits⟩), if_neg (not_not.mpr hlength)]
  cases write with
  | done => rfl
  | torn written => rw [State.written, h.reserved]

/-- **An append either refuses with the journal unchanged, or its record is admitted.** -/
theorem append_cases (format : RecordFormat R) (state : State R) (record : R) (write : Write) :
    (∃ e, state.append format record write = (.error e, state)) ∨
      ∃ bytes digest reservation, Admitted format state record bytes digest reservation := by
  unfold State.append
  split
  · exact Or.inl ⟨_, rfl⟩
  next hlive =>
  split
  · exact Or.inl ⟨_, rfl⟩
  next hvalid =>
  split
  · exact Or.inl ⟨_, rfl⟩
  next bytes digest hframed =>
  split
  · exact Or.inl ⟨_, rfl⟩
  next reservation hreserved =>
  split
  · exact Or.inl ⟨_, rfl⟩
  next hfits =>
  obtain ⟨hleft, hfits⟩ := not_not.mp hfits
  exact Or.inr ⟨bytes, digest, reservation, Bool.eq_false_of_not_eq_true hlive,
    not_not.mp hvalid, hframed, hreserved, hleft, hfits⟩

theorem Admitted.decodeFrame (h : Admitted format state record bytes digest reservation)
    (hcount : state.chain.records.length < frameCount)
    (hdigest : state.chain.lastDigest.length = 32) :
    decodeFrame format state.chain bytes = .ok (state.chain.push record bytes digest, []) := by
  simpa only [List.append_nil] using
    decodeFrame_append hcount hdigest (reads_of_frame h.framed) h.valid []

/-! ## What a file holds -/

def Decodes (format : RecordFormat R) (bytes : List UInt8) (records : List R) : Prop :=
  ∃ chain, decode format bytes = .ok chain ∧ chain.records = records

/-- Where the frame with this number starts. -/
def boundary (frames : List (List UInt8)) (k : Nat) : Nat := (frames.take k).flatten.length

/-- The file is within the limits and holds these records, one in each frame; what ends between two
frames holds the records before, and what ends within a frame is refused. -/
structure Holds (format : RecordFormat R) (file : List UInt8) (records : List R) : Prop where
  size : file.length ≤ journalLimit
  count : records.length ≤ frameCount
  whole : Decodes format file records
  parts : ∃ frames : List (List UInt8), file = frames.flatten ∧ frames.length = records.length ∧
    (∀ bytes ∈ frames, Bytes.decode (bytes.take 4) = bytes.length) ∧
    (∀ k ≤ frames.length, Decodes format (file.take (boundary frames k)) (records.take k)) ∧
    ∀ n ≤ file.length, (∀ k ≤ frames.length, n ≠ boundary frames k) →
      ∃ e, decode format (file.take n) = .error e

theorem decode_of_cuts (h : (scanner format).Cuts Chain.empty frames chain)
    (hsize : frames.flatten.length ≤ journalLimit) : decode format frames.flatten = .ok chain := by
  unfold decode
  rw [if_neg (not_lt.mpr hsize)]
  exact Pieces.Scanner.scan_eq_ok.mpr ⟨frames, h, rfl⟩

theorem cuts_of_decode {file : List UInt8} (h : decode format file = .ok chain) :
    file.length ≤ journalLimit ∧
      ∃ frames, (scanner format).Cuts Chain.empty frames chain ∧ file = frames.flatten := by
  obtain ⟨hsize, h⟩ := Except.guard_eq_ok.mp h
  exact ⟨not_lt.mp hsize, Pieces.Scanner.scan_eq_ok.mp h⟩

theorem take_boundary (frames : List (List UInt8)) (k : Nat) :
    frames.flatten.take (boundary frames k) = (frames.take k).flatten := by
  have hsplit : frames.flatten = (frames.take k).flatten ++ (frames.drop k).flatten := by
    rw [← List.flatten_append, List.take_append_drop]
  rw [hsplit]
  exact List.take_left

theorem holds_of_cuts (h : (scanner format).Cuts Chain.empty frames chain)
    (hsize : frames.flatten.length ≤ journalLimit) : Holds format frames.flatten chain.records := by
  have hextends := extends_of_cuts h
  have hcount : chain.records.length = frames.length := hextends.count.trans (Nat.zero_add _)
  refine ⟨hsize, hextends.bounded (Nat.zero_le _), ⟨chain, decode_of_cuts h hsize, rfl⟩, frames,
    rfl, hcount.symm, hextends.lengths, ?_, ?_⟩
  · intro k hk
    obtain ⟨middle, hfirst, hlater⟩ := h.split k
    have hpart : (frames.take k).flatten.length ≤ journalLimit := by
      rw [← take_boundary, List.length_take]
      omega
    have hlength : middle.records.length = k := by
      have := (extends_of_cuts hfirst).count
      rw [List.length_take, Nat.min_eq_left hk] at this
      exact this.trans (Nat.zero_add _)
    have hinitial := List.prefix_iff_eq_take.mp (extends_of_cuts hlater).records
    rw [take_boundary]
    exact ⟨middle, decode_of_cuts hfirst hpart, by rw [hinitial, hlength]⟩
  · intro n hn hbetween
    rcases h.scan_take n hn with ⟨k, hk, heq⟩ | ⟨e, he⟩
    · exact absurd heq (hbetween k hk)
    refine ⟨e, ?_⟩
    unfold decode
    rw [if_neg (by rw [List.length_take]; omega)]
    exact he

/-! ## All sequences of calls -/

/-- What may stand after the frames of the records: nothing, or a part of the frame whose write
failed. -/
def Torn (format : RecordFormat R) (state : State R) (tail : List UInt8) : Prop :=
  tail = [] ∨ state.poisoned = true ∧ ∃ record bytes digest n,
    decodeFrame format state.chain bytes = .ok (state.chain.push record bytes digest, []) ∧
      tail = bytes.take n

/-- The invariant: the reservation that is left fits behind the frames of the file. -/
structure Sound (format : RecordFormat R) (initial : List R) (trace : Trace R) : Prop where
  file : ∃ frames tail, (scanner format).Cuts Chain.empty frames trace.state.chain ∧
    trace.state.file = frames.flatten ++ tail ∧ Torn format trace.state tail
  records : trace.state.chain.records = initial ++ trace.appended
  size : trace.state.file.length ≤ journalLimit
  reserved : ∀ reservation, trace.state.reservation = some reservation →
    trace.state.chain.records.length + reservation.frames ≤ frameCount ∧
      trace.state.chain.byteLen + reservation.frames * reservation.maximumFrameBytes ≤ journalLimit
  granted : ∀ reservation count, trace.granted = some (reservation, count) →
    ∃ left, trace.state.reservation = some left ∧ left.frames + count = reservation.frames ∧
      left.maximumFrameBytes = reservation.maximumFrameBytes

variable {initial : List R} {trace : Trace R}

theorem Sound.cut (h : Sound format initial trace) (hlive : trace.state.poisoned = false) :
    ∃ frames, (scanner format).Cuts Chain.empty frames trace.state.chain ∧
      trace.state.file = frames.flatten ∧ trace.state.file.length = trace.state.chain.byteLen := by
  obtain ⟨frames, tail, hcuts, hfile, htorn⟩ := h.file
  rcases htorn with rfl | ⟨hpoisoned, -⟩
  · rw [List.append_nil] at hfile
    refine ⟨frames, hcuts, hfile, ?_⟩
    rw [(extends_of_cuts hcuts).byteLen, hfile]
    exact (Nat.zero_add _).symm
  · cases hlive.symm.trans hpoisoned

theorem sound_create (format : RecordFormat R) (reservation : Reservation) :
    Sound format [] ⟨.create reservation, [], some (reservation, 0)⟩ where
  file := ⟨[], [], .nil _, rfl, Or.inl rfl⟩
  records := rfl
  size := Nat.zero_le _
  reserved := by
    rintro _ ⟨⟩
    show 0 + _ ≤ _ ∧ 0 + _ ≤ _
    rw [Nat.zero_add, Nat.zero_add]
    exact ⟨reservation.count, reservation.bytes⟩
  granted := by
    rintro _ _ ⟨⟩
    exact ⟨reservation, rfl, rfl, rfl⟩

theorem sound_openFile {file : List UInt8} (h : State.openFile format file = .ok state) :
    Sound format state.chain.records ⟨state, [], none⟩ := by
  obtain ⟨-, h⟩ := Except.guard_eq_ok.mp h
  split at h
  · cases h
  next chain hdecode =>
  cases h
  obtain ⟨hsize, frames, hcuts, rfl⟩ := cuts_of_decode hdecode
  exact {
    file := ⟨frames, [], hcuts, (List.append_nil _).symm, Or.inl rfl⟩
    records := (List.append_nil _).symm
    size := hsize
    reserved := fun _ hnone => by cases hnone
    granted := fun _ _ hnone => by cases hnone }

theorem Start.sound {start : Start} (h : start.trace format = .ok trace) :
    Sound format trace.state.chain.records trace := by
  cases start with
  | create reservation =>
    cases h
    exact sound_create format reservation
  | openFile file =>
    obtain ⟨state, hopen, rfl⟩ := Except.map_eq_ok.mp h
    exact sound_openFile hopen

/-- A reservation is accepted only if it fits behind the frames of the file. -/
theorem Sound.reserve (h : Sound format initial trace) {state : State R}
    (hreserve : trace.state.reserve reservation = .ok state) :
    Sound format initial { trace with state, granted := some (reservation, 0) } := by
  obtain ⟨-, hreserve⟩ := Except.guard_eq_ok.mp hreserve
  split at hreserve
  · cases hreserve
  next hbudget =>
  cases hreserve
  obtain ⟨-, hcount, hbytes⟩ := checkBudget_eq_ok hbudget
  refine ⟨h.file, h.records, h.size, ?_, ?_⟩
  · rintro _ ⟨⟩
    exact ⟨hcount, hbytes⟩
  · rintro _ _ ⟨⟩
    exact ⟨reservation, rfl, rfl, rfl⟩

/-- An admitted record is written behind the frames of the file, and its frame is one of those that
were reserved. -/
theorem Sound.admitted (h : Sound format initial trace)
    (hadmitted : Admitted format trace.state record bytes digest reservation) :
    trace.state.file.length = trace.state.chain.byteLen ∧
      trace.state.file.length + bytes.length ≤ journalLimit ∧
      decodeFrame format trace.state.chain bytes
        = .ok (trace.state.chain.push record bytes digest, []) := by
  obtain ⟨frames, hcuts, -, hlength⟩ := h.cut hadmitted.live
  obtain ⟨hcount, hbytes⟩ := h.reserved reservation hadmitted.reserved
  have hleft := hadmitted.left
  have hone : bytes.length ≤ reservation.frames * reservation.maximumFrameBytes :=
    calc bytes.length ≤ reservation.maximumFrameBytes := hadmitted.fits
      _ ≤ reservation.frames * reservation.maximumFrameBytes := Nat.le_mul_of_pos_left _ hleft
  have hdigest := (extends_of_cuts hcuts).digest (List.length_replicate ..)
  exact ⟨hlength, by omega, hadmitted.decodeFrame (by omega) hdigest⟩

/-- After a failed write the file ends with a part of the frame. -/
theorem Sound.torn (h : Sound format initial trace)
    (hadmitted : Admitted format trace.state record bytes digest reservation) (written : Nat) :
    Sound format initial { trace with state := { trace.state with
      file := trace.state.file ++ bytes.take written, poisoned := true } } := by
  obtain ⟨hlength, hsize, hdecode⟩ := h.admitted hadmitted
  obtain ⟨frames, hcuts, hfile, -⟩ := h.cut hadmitted.live
  refine ⟨⟨frames, bytes.take written, hcuts, by rw [hfile], Or.inr ⟨rfl, ?_⟩⟩, h.records, ?_,
    h.reserved, h.granted⟩
  · exact ⟨record, bytes, digest, written, hdecode, rfl⟩
  · rw [List.length_append, List.length_take]
    omega

/-- After a successful write there is one frame more in the file and one less in the reservation. -/
theorem Sound.appended (h : Sound format initial trace)
    (hadmitted : Admitted format trace.state record bytes digest reservation) :
    Sound format initial {
      state := {
        file := trace.state.file ++ bytes
        chain := trace.state.chain.push record bytes digest
        poisoned := false
        reservation := some reservation.remaining }
      appended := trace.appended ++ [record]
      granted := trace.granted.map fun (reservation, count) => (reservation, count + 1) } := by
  obtain ⟨hlength, hsize, hdecode⟩ := h.admitted hadmitted
  obtain ⟨frames, hcuts, hfile, -⟩ := h.cut hadmitted.live
  obtain ⟨hcount, hbytes⟩ := h.reserved reservation hadmitted.reserved
  have hleft := hadmitted.left
  refine ⟨⟨frames ++ [bytes], [], hcuts.append (.cons hdecode (.nil _)), ?_, Or.inl rfl⟩, ?_, ?_,
    ?_, ?_⟩
  · rw [List.flatten_append, List.append_nil, hfile, List.flatten_singleton]
  · show trace.state.chain.records ++ [record] = _
    rw [h.records, List.append_assoc]
  · rw [List.length_append]
    exact hsize
  · rintro _ ⟨⟩
    have hrest : (reservation.frames - 1) * reservation.maximumFrameBytes
          + reservation.maximumFrameBytes
        = reservation.frames * reservation.maximumFrameBytes := by
      rw [← Nat.succ_mul, Nat.succ_eq_add_one, Nat.sub_add_cancel hleft]
    have hfits := hadmitted.fits
    constructor
    · show (trace.state.chain.records ++ [record]).length + (reservation.frames - 1) ≤ frameCount
      rw [List.length_append, List.length_singleton]
      omega
    · show trace.state.chain.byteLen + bytes.length
        + (reservation.frames - 1) * reservation.maximumFrameBytes ≤ journalLimit
      omega
  · intro granted count hgranted
    obtain ⟨⟨first, before⟩, hbefore, heq⟩ := Option.map_eq_some_iff.mp hgranted
    cases heq
    obtain ⟨left, hsome, hframes, hmaximum⟩ := h.granted granted before hbefore
    cases hadmitted.reserved.symm.trans hsome
    refine ⟨reservation.remaining, rfl, ?_, hmaximum⟩
    show reservation.frames - 1 + (before + 1) = granted.frames
    omega

theorem Sound.advance (h : Sound format initial trace) (call : Call R) :
    Sound format initial (trace.advance format call) := by
  cases call with
  | reserve reservation =>
    unfold Trace.advance
    dsimp only
    split
    · exact h
    · next state hreserve => exact h.reserve hreserve
  | append record write =>
    unfold Trace.advance
    dsimp only
    rcases append_cases format trace.state record write with
      ⟨e, hrefused⟩ | ⟨bytes, digest, reservation, hadmitted⟩
    · rw [hrefused]
      exact h
    · rw [append_of_admitted hadmitted (h.admitted hadmitted).1]
      cases write with
      | done => exact h.appended hadmitted
      | torn written => exact h.torn hadmitted written

/-- The invariant holds after every sequence of calls. -/
theorem Sound.run (h : Sound format initial trace) (calls : List (Call R)) :
    Sound format initial (run format trace calls) := by
  induction calls generalizing trace with
  | nil => exact h
  | cons call calls ih => exact ih (h.advance call)

/-- A record of the reserved size is accepted while frames of the reservation are left. -/
theorem Sound.append_accepts (h : Sound format initial trace)
    (hlive : trace.state.poisoned = false) {count : Nat}
    (hgranted : trace.granted = some (reservation, count)) (hcount : count < reservation.frames)
    {text : List UInt8} (htext : format.toText record = some text)
    (hvalid : format.validate record trace.state.chain.records.getLast? = true)
    (hsize : text.length + overhead ≤ reservation.maximumFrameBytes) :
    (trace.state.append format record .done).1 = .ok () := by
  obtain ⟨left, hleft, hframes, hmaximum⟩ := h.granted reservation count hgranted
  obtain ⟨frames, hcuts, -, hlength⟩ := h.cut hlive
  have hdigest := (extends_of_cuts hcuts).digest (List.length_replicate ..)
  have hlimit := hsize.trans reservation.size
  have hframed : frame format record trace.state.chain.lastDigest
      = .ok (body trace.state.chain.lastDigest text
          ++ format.digest (body trace.state.chain.lastDigest text),
        format.digest (body trace.state.chain.lastDigest text)) := by
    unfold frame
    rw [htext]
    dsimp only
    rw [if_neg (by omega), if_neg (by omega)]
  have hadmitted : Admitted format trace.state record _ _ left := {
    live := hlive
    valid := hvalid
    framed := hframed
    reserved := hleft
    left := by omega
    fits := by
      rw [List.length_append, length_body text hdigest, format.length_digest, hmaximum]
      unfold overhead at hsize
      omega }
  rw [append_of_admitted hadmitted hlength]
  rfl

/-- **The journal reopens to what was written.** After every sequence of reservations and appends
the file holds the records it started with and those that were appended, and the same journal is
read from it again. While frames of the last reservation are left, every valid record of the
reserved size is accepted. -/
theorem journal_reopens {start : Start} {first : Trace R} (hstart : start.trace format = .ok first)
    (calls : List (Call R)) (hlive : (run format first calls).state.poisoned = false) :
    Holds format (run format first calls).state.file
        (first.state.chain.records ++ (run format first calls).appended) ∧
      ((run format first calls).state.file ≠ [] →
        State.openFile format (run format first calls).state.file
          = .ok { (run format first calls).state with reservation := none }) ∧
      ∀ reservation count, (run format first calls).granted = some (reservation, count) →
        count < reservation.frames → ∀ record text, format.toText record = some text →
        format.validate record (run format first calls).state.chain.records.getLast? = true →
        text.length + overhead ≤ reservation.maximumFrameBytes →
        ((run format first calls).state.append format record .done).1 = .ok () := by
  have hsound := (Start.sound hstart).run calls
  generalize run format first calls = final at hlive hsound ⊢
  obtain ⟨frames, hcuts, hfile, -⟩ := hsound.cut hlive
  have hsize := hsound.size
  refine ⟨?_, ?_, ?_⟩
  · rw [← hsound.records, hfile]
    rw [hfile] at hsize
    exact holds_of_cuts hcuts hsize
  · intro hne
    have hdecode : decode format final.state.file = .ok final.state.chain := by
      rw [hfile] at hsize ⊢
      exact decode_of_cuts hcuts hsize
    unfold State.openFile
    rw [if_neg (not_not.mpr ⟨List.length_pos_iff.mpr hne, hsize⟩), hdecode]
    dsimp only
    rw [hlive]
  · intro reservation count hgranted hcount record text htext hvalid hfits
    exact hsound.append_accepts hlive hgranted hcount htext hvalid hfits

/-- **What is read after a write that may have failed.** After every sequence of reservations,
appends and one write of unknown outcome, a file that can be opened holds the records that were
appended, and at most the record of that write besides; a part of a frame is refused. -/
theorem reopened_records {start : Start} {first : Trace R} (hstart : start.trace format = .ok first)
    (calls : List (Call R))
    (hopen : State.openFile format (run format first calls).state.file = .ok state) :
    state.chain.records = first.state.chain.records ++ (run format first calls).appended ∨
      (run format first calls).state.poisoned = true ∧
      ∃ record, format.validate record (run format first calls).state.chain.records.getLast?
        = true ∧ state.chain.records
          = first.state.chain.records ++ (run format first calls).appended ++ [record] := by
  have hsound := (Start.sound hstart).run calls
  generalize run format first calls = final at hsound hopen ⊢
  rw [← hsound.records]
  obtain ⟨frames, tail, hcuts, hfile, htorn⟩ := hsound.file
  obtain ⟨-, hopen⟩ := Except.guard_eq_ok.mp hopen
  split at hopen
  · cases hopen
  next chain hdecode =>
  cases hopen
  -- the whole frames are read again, and what stands after them decides
  obtain ⟨-, hscan⟩ := Except.guard_eq_ok.mp hdecode
  rw [hfile, hcuts.scan_append] at hscan
  rcases htorn with rfl | ⟨hpoisoned, record, bytes, digest, n, hbytes, rfl⟩
  · cases hscan
    exact Or.inl rfl
  rcases Nat.lt_or_ge n bytes.length with hlt | hge
  · rcases Nat.eq_zero_or_pos n with rfl | hpos
    · cases hscan
      exact Or.inl rfl
    obtain ⟨e, herror⟩ := (scanner format).torn hbytes n hlt
    have hne : bytes.take n ≠ [] := List.ne_nil_of_length_pos (by rw [List.length_take]; omega)
    cases hscan.symm.trans (Pieces.Scanner.scan_of_error hne herror)
  · rw [List.take_of_length_le hge, Pieces.Scanner.scan_of_next hbytes] at hscan
    cases hscan
    obtain ⟨written, _, _, -, -, -, hvalid, -, -, hpush⟩ := decodeFrame_ok hbytes
    exact Or.inr ⟨hpoisoned, written, hvalid, congrArg Chain.records hpush⟩

end Machine

/-- All bytes as one number, as far as 32 bytes tell. -/
def checksum (bytes : List UInt8) : List UInt8 :=
  let sum := bytes.foldl (fun sum byte => sum * 257 + byte.toNat) 0
  (List.range 32).map fun i => UInt8.ofNat (sum / 256 ^ i)

def digitText (digit : Fin 10) : List UInt8 :=
  ("\x7b\"n\":".toUTF8.toList ++ [48 + UInt8.ofNat digit]) ++ "\x7d".toUTF8.toList

/-- Records of a digit, each one more than the one before it. -/
def counting : RecordFormat (Fin 10) where
  toText digit := some (digitText digit)
  ofText text := (List.finRange 10).find? (fun digit => digitText digit == text)
  validate digit last := digit.val == last.elim 0 (·.val + 1)
  digest := checksum
  ofText_toText := by
    rintro digit _ ⟨⟩
    revert digit
    decide +kernel
  ofText_nil := by decide +kernel
  length_digest _ := by simp [checksum]

def threeFrames : Reservation := ⟨3, 75, by decide, by decide, by decide⟩

/-- Two numbers, the second after a number that is refused. -/
def twoNumbers : List (Call (Fin 10)) := [.append 0 .done, .append 7 .done, .append 1 .done]

theorem journal_reopens_counting :
    Holds counting
      (run counting ⟨.create threeFrames, [], some (threeFrames, 0)⟩ twoNumbers).state.file
      [0, 1] := by
  have happended :
      (run counting ⟨.create threeFrames, [], some (threeFrames, 0)⟩ twoNumbers).appended
        = [0, 1] := by decide +kernel
  rw [← happended]
  exact (@journal_reopens _ counting (.create threeFrames) _ rfl twoNumbers (by decide +kernel)).1

/-- The second number is written, but the flush fails. -/
def secondTorn : Trace (Fin 10) :=
  run counting ⟨.create threeFrames, [], some (threeFrames, 0)⟩
    [.append 0 .done, .append 1 (.torn 75)]

theorem reopened_records_counting :
    ∃ state, State.openFile counting secondTorn.state.file = .ok state ∧
      (state.chain.records = [0] ∨ ∃ record, state.chain.records = [0, record]) := by
  obtain ⟨state, hopen, -⟩ : ∃ state, State.openFile counting secondTorn.state.file = .ok state ∧
      state.chain.records = [0, 1] := by decide +kernel
  have happended : secondTorn.appended = [0] := by decide +kernel
  rcases @reopened_records _ counting _ (.create threeFrames) _ rfl _ hopen with h |
    ⟨-, record, -, h⟩
  · exact ⟨state, hopen, Or.inl (h.trans happended)⟩
  · exact ⟨state, hopen, Or.inr ⟨record, h.trans (congrArg (· ++ [record]) happended)⟩⟩

end Journal

end Locron
