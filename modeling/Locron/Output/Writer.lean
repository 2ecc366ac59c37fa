import Locron.Output.Readers

set_option autoImplicit false

/-! # The writer of output files

While an attempt runs, the engine appends what it captures to the output file of the attempt, in
frames of at most one mebibyte, until the capture limit is reached; what is offered beyond it is
counted and dropped. After a crash some prefix of what was written is found, and repairing it leaves
exactly the frames that lie in it (`OutputWriter.survives_iff`).
-/

namespace Locron

/-- Addition of 64-bit counters. -/
def u64Add (a b : Nat) : Nat := min (a + b) u64Max

/-- A counter that stops at its maximum stays at its maximum. -/
theorem u64Add_min (a b : Nat) : u64Add (min a u64Max) b = min (a + b) u64Max := by
  unfold u64Add
  generalize u64Max = m
  omega

/-- One call of the writer; the time is in microseconds. -/
structure OutputWrite where
  channel : Channel
  elapsed : Nat
  payload : List UInt8
deriving DecidableEq, Repr

/-- The writer, with what it has appended to its file. -/
structure OutputWriter where
  bytes : List UInt8
  nextSequence : Nat
  limit : UInt64
  stats : OutputStats
deriving DecidableEq, Repr

namespace OutputWriter

def create (limit : UInt64) : OutputWriter where
  bytes := outputMagic
  nextSequence := 0
  limit := limit
  stats := { physicalBytes := outputMagic.length }

def writeFrame (w : OutputWriter) (channel : Channel) (elapsed : Nat) (payload : List UInt8) :
    Except IoError OutputWriter :=
  let frame : Frame := ⟨channel, w.nextSequence, min elapsed u64Max, payload⟩
  if 2 ^ 32 ≤ payload.length then .error (.invalidInput "frame too large")
  else
    .ok { w with
      bytes := w.bytes ++ frame.encode
      nextSequence := u64Add w.nextSequence 1
      stats := { w.stats with
        retainedBytes := u64Add w.stats.retainedBytes payload.length
        physicalBytes := u64Add (u64Add w.stats.physicalBytes frameHeaderLen) payload.length } }

def writeChunks (channel : Channel) (elapsed : Nat) :
    List (List UInt8) → OutputWriter → Except IoError OutputWriter
  | [], w => .ok w
  | chunk :: chunks, w =>
    match w.writeFrame channel elapsed chunk with
    | .error error => .error error
    | .ok w => writeChunks channel elapsed chunks w

def discard (w : OutputWriter) (discarded : Nat) : OutputWriter :=
  { w with stats := { w.stats with
    discardedBytes := u64Add w.stats.discardedBytes discarded
    truncated := w.stats.truncated || decide (0 < discarded) } }

/-- Appends captured bytes, as far as the allowance reaches. -/
def write (w : OutputWriter) (call : OutputWrite) : Except IoError OutputWriter :=
  let available := w.limit.toNat - w.stats.retainedBytes
  let retainedLen := min available call.payload.length
  let written :=
    if 0 < retainedLen then
      writeChunks call.channel call.elapsed
        (Bytes.chunks maxFrameLen (call.payload.take retainedLen)) w
    else .ok w
  match written with
  | .error error => .error error
  | .ok w => .ok (w.discard (call.payload.length - retainedLen))

def writeAll : List OutputWrite → OutputWriter → Except IoError OutputWriter
  | [], w => .ok w
  | call :: calls, w =>
    match w.write call with
    | .error error => .error error
    | .ok w => writeAll calls w

/-! ## What is captured

The bytes of a sequence of calls that a limit lets through, per channel.
-/

def offered (calls : List OutputWrite) : Nat := (calls.map (fun c => c.payload.length)).sum

/-- The bytes offered on a channel before the limit is reached. -/
def retainedOn (channel : Channel) : Nat → List OutputWrite → List UInt8
  | _, [] => []
  | available, call :: calls =>
    (if call.channel = channel then call.payload.take available else [])
      ++ retainedOn channel (available - call.payload.length) calls

def payloadOn (channel : Channel) (frames : List Frame) : List UInt8 :=
  (frames.filter (fun f => f.channel = channel)).flatMap Frame.payload

theorem payloadOn_append (channel : Channel) (frames frames' : List Frame) :
    payloadOn channel (frames ++ frames')
      = payloadOn channel frames ++ payloadOn channel frames' := by
  simp [payloadOn]

theorem payloadBytes_append (frames frames' : List Frame) :
    payloadBytes (frames ++ frames') = payloadBytes frames + payloadBytes frames' := by
  simp [payloadBytes]

variable {frames : List Frame}

theorem payloadOn_of_forall {c : Channel} (h : ∀ f ∈ frames, f.channel = c) (channel : Channel) :
    payloadOn channel frames = if c = channel then frames.flatMap Frame.payload else [] := by
  by_cases hc : c = channel
  · subst hc
    rw [if_pos rfl, payloadOn, List.filter_eq_self.mpr (fun f hf => decide_eq_true (h f hf))]
  rw [if_neg hc, payloadOn, List.filter_eq_nil_iff.mpr, List.flatMap_nil]
  intro f hf
  rw [h f hf]
  simpa using hc

/-! ## The invariant of the writer -/

structure Wrote (w : OutputWriter) (frames : List Frame) : Prop where
  file : w.bytes = outputMagic ++ frameCodec.encodeAll frames
  valid : frameCodec.ValidFrom 0 frames
  next : w.nextSequence = frames.length
  retained : w.stats.retainedBytes = payloadBytes frames
  within : payloadBytes frames ≤ w.limit.toNat
  physical : w.stats.physicalBytes = min w.bytes.length u64Max
  /-- no frame is empty, so that the numbers of frames stay below the limit, too -/
  count : frames.length ≤ payloadBytes frames

theorem wrote_create (limit : UInt64) : (create limit).Wrote [] where
  file := rfl
  valid := trivial
  next := rfl
  retained := rfl
  within := Nat.zero_le _
  physical := rfl
  count := le_refl 0

variable {w : OutputWriter}

/-- **A frame that fits the limit is written.** -/
theorem Wrote.writeFrame (h : w.Wrote frames)
    (channel : Channel) (elapsed : Nat) {payload : List UInt8} (hpos : 0 < payload.length)
    (hle : payload.length ≤ maxFrameLen)
    (hroom : payloadBytes frames + payload.length ≤ w.limit.toNat) :
    ∃ w' f, w.writeFrame channel elapsed payload = .ok w' ∧ w'.Wrote (frames ++ [f]) ∧
      f.channel = channel ∧ f.payload = payload ∧ w'.limit = w.limit ∧
      w'.stats.discardedBytes = w.stats.discardedBytes := by
  have hlimit : w.limit.toNat < u64Max + 1 := w.limit.toNat_lt
  have hcount := h.count
  have hmax : maxFrameLen < 2 ^ 32 := by decide
  let f : Frame := ⟨channel, w.nextSequence, min elapsed u64Max, payload⟩
  have hvalid : f.Valid (0 + frames.length) := by
    refine ⟨by rw [Nat.zero_add]; exact h.next, ?_, ?_, hle⟩
    · show 0 + frames.length < u64Max + 1
      omega
    · show min elapsed u64Max < u64Max + 1
      omega
  have hbytes : payloadBytes (frames ++ [f]) = payloadBytes frames + payload.length := by
    rw [payloadBytes_append]
    rfl
  refine ⟨_, f, if_neg (by omega), ?_, rfl, rfl, rfl, rfl⟩
  constructor
  · show w.bytes ++ f.encode = outputMagic ++ frameCodec.encodeAll (frames ++ [f])
    rw [Framing.Codec.encodeAll_append, h.file, List.append_assoc,
      show frameCodec.encodeAll [f] = f.encode from List.append_nil _]
  · exact frameCodec.validFrom_append.mpr ⟨h.valid, hvalid, trivial⟩
  · show u64Add w.nextSequence 1 = (frames ++ [f]).length
    rw [h.next, List.length_append, List.length_singleton]
    exact min_eq_left (by omega)
  · show u64Add w.stats.retainedBytes payload.length = _
    rw [hbytes, h.retained]
    exact min_eq_left (by omega)
  · rw [hbytes]
    exact hroom
  · show u64Add (u64Add w.stats.physicalBytes frameHeaderLen) payload.length
      = min (w.bytes ++ f.encode).length u64Max
    rw [h.physical, u64Add_min, u64Add_min, List.length_append, Frame.length_encode, Nat.add_assoc]
  · rw [hbytes, List.length_append, List.length_singleton]
    omega

theorem Wrote.writeChunks (h : w.Wrote frames)
    (channel : Channel) (elapsed : Nat) {chunks : List (List UInt8)}
    (hchunks : ∀ c ∈ chunks, 0 < c.length ∧ c.length ≤ maxFrameLen)
    (hroom : payloadBytes frames + chunks.flatten.length ≤ w.limit.toNat) :
    ∃ w' fs, writeChunks channel elapsed chunks w = .ok w' ∧ w'.Wrote (frames ++ fs) ∧
      (∀ f ∈ fs, f.channel = channel) ∧ fs.flatMap Frame.payload = chunks.flatten ∧
      w'.limit = w.limit ∧ w'.stats.discardedBytes = w.stats.discardedBytes := by
  induction chunks generalizing w frames with
  | nil => exact ⟨w, [], rfl, by rwa [List.append_nil], fun f hf => absurd hf (by simp), rfl, rfl,
    rfl⟩
  | cons chunk chunks ih =>
    rw [List.flatten_cons, List.length_append] at hroom
    obtain ⟨hpos, hle⟩ := hchunks chunk (List.mem_cons_self ..)
    obtain ⟨w₁, f, hwrite, hw₁, hchannel, hpayload, hlimit, hdiscarded⟩ :=
      h.writeFrame channel elapsed hpos hle (by omega)
    have hroom₁ : payloadBytes (frames ++ [f]) + chunks.flatten.length ≤ w₁.limit.toNat := by
      rw [payloadBytes_append, payloadBytes_cons, payloadBytes_nil, hpayload, hlimit]
      omega
    obtain ⟨w₂, fs, hrest, hw₂, hchannels, hpayloads, hlimit₂, hdiscarded₂⟩ :=
      ih hw₁ (fun c hc => hchunks c (List.mem_cons_of_mem chunk hc)) hroom₁
    refine ⟨w₂, f :: fs, ?_, ?_, ?_, ?_, hlimit₂.trans hlimit, hdiscarded₂.trans hdiscarded⟩
    · unfold OutputWriter.writeChunks
      rw [hwrite]
      exact hrest
    · rwa [List.append_assoc, List.singleton_append] at hw₂
    · intro g hg
      rcases List.mem_cons.mp hg with rfl | hg
      · exact hchannel
      · exact hchannels g hg
    · rw [List.flatMap_cons, hpayload, hpayloads, List.flatten_cons]

/-- **One call**: the bytes that the limit lets through are written, the rest is counted. -/
theorem Wrote.write (h : w.Wrote frames) (call : OutputWrite) :
    ∃ w' fs, w.write call = .ok w' ∧ w'.Wrote (frames ++ fs) ∧
      (∀ f ∈ fs, f.channel = call.channel) ∧
      fs.flatMap Frame.payload = call.payload.take (w.limit.toNat - payloadBytes frames) ∧
      w'.limit = w.limit ∧
      w'.stats.discardedBytes = u64Add w.stats.discardedBytes
        (call.payload.length - (w.limit.toNat - payloadBytes frames)) := by
  have hwithin := h.within
  have htake : call.payload.take (min (w.limit.toNat - payloadBytes frames) call.payload.length)
      = call.payload.take (w.limit.toNat - payloadBytes frames) := List.take_eq_take_min.symm
  have hflatten := Bytes.flatten_chunks (show 0 < maxFrameLen by decide)
    (call.payload.take (w.limit.toNat - payloadBytes frames))
  -- without room or payload there are no chunks, so that both branches write the chunks
  have hwritten : w.write call
      = match OutputWriter.writeChunks call.channel call.elapsed (Bytes.chunks maxFrameLen
          (call.payload.take (w.limit.toNat - payloadBytes frames))) w with
        | .error error => .error error
        | .ok w' => .ok (w'.discard (call.payload.length
            - min (w.limit.toNat - payloadBytes frames) call.payload.length)) := by
    unfold OutputWriter.write
    dsimp only
    rw [h.retained, htake]
    by_cases hpos : 0 < min (w.limit.toNat - payloadBytes frames) call.payload.length
    · rw [if_pos hpos]
    have hnone : call.payload.take (w.limit.toNat - payloadBytes frames) = [] := by
      rw [← htake, Nat.eq_zero_of_not_pos hpos, List.take_zero]
    rw [if_neg hpos, hnone]
    rfl
  have hroom : payloadBytes frames + (Bytes.chunks maxFrameLen
      (call.payload.take (w.limit.toNat - payloadBytes frames))).flatten.length
        ≤ w.limit.toNat := by
    have hlength := List.length_take_le (w.limit.toNat - payloadBytes frames) call.payload
    rw [hflatten]
    omega
  obtain ⟨w₁, fs, hchunks, hw₁, hchannels, hpayloads, hlimit, hdiscarded⟩ :=
    h.writeChunks call.channel call.elapsed
      (fun c hc => Bytes.mem_chunks (show 0 < maxFrameLen by decide) hc) hroom
  rw [hchunks] at hwritten
  refine ⟨_, fs, hwritten, ?_, hchannels, hpayloads.trans hflatten, hlimit, ?_⟩
  · exact ⟨hw₁.file, hw₁.valid, hw₁.next, hw₁.retained, hw₁.within, hw₁.physical, hw₁.count⟩
  show u64Add w₁.stats.discardedBytes _ = _
  rw [hdiscarded]
  congr 1
  omega

/-- **A sequence of calls**: per channel, exactly the bytes that the limit lets through are
written, and what is offered beyond it is counted. -/
theorem Wrote.writeAll (h : w.Wrote frames) (calls : List OutputWrite) :
    ∃ w' fs, OutputWriter.writeAll calls w = .ok w' ∧ w'.Wrote (frames ++ fs) ∧
      (∀ channel, payloadOn channel fs
        = retainedOn channel (w.limit.toNat - payloadBytes frames) calls) ∧
      w'.limit = w.limit ∧
      payloadBytes fs = min (w.limit.toNat - payloadBytes frames) (offered calls) ∧
      (∀ before, w.stats.discardedBytes = min before u64Max → w'.stats.discardedBytes
        = min (before + (offered calls - (w.limit.toNat - payloadBytes frames))) u64Max) := by
  induction calls generalizing w frames with
  | nil =>
    refine ⟨w, [], rfl, by rwa [List.append_nil], fun _ => rfl, rfl, ?_, ?_⟩
    · exact (Nat.min_zero _).symm
    · intro before hbefore
      rwa [show offered [] = 0 from rfl, Nat.zero_sub, Nat.add_zero]
  | cons call calls ih =>
    obtain ⟨w₁, fs₁, hwrite, hw₁, hchannels, hpayloads, hlimit₁, hdiscarded₁⟩ := h.write call
    obtain ⟨w₂, fs₂, hrest, hw₂, hretained, hlimit₂, hbytes₂, hdiscarded₂⟩ := ih hw₁
    have hoffered : offered (call :: calls) = call.payload.length + offered calls := rfl
    have hbytes₁ : payloadBytes fs₁
        = min (w.limit.toNat - payloadBytes frames) call.payload.length := by
      calc payloadBytes fs₁
          = (fs₁.flatMap Frame.payload).length := by rw [List.length_flatMap, payloadBytes]
        _ = (call.payload.take (w.limit.toNat - payloadBytes frames)).length := by rw [hpayloads]
        _ = _ := List.length_take
    have hleft : w₁.limit.toNat - payloadBytes (frames ++ fs₁)
        = w.limit.toNat - payloadBytes frames - call.payload.length := by
      rw [hlimit₁, payloadBytes_append, hbytes₁]
      omega
    rw [hleft] at hretained hbytes₂ hdiscarded₂
    refine ⟨w₂, fs₁ ++ fs₂, ?_, ?_, ?_, hlimit₂.trans hlimit₁, ?_, ?_⟩
    · unfold OutputWriter.writeAll
      rw [hwrite]
      exact hrest
    · rwa [List.append_assoc] at hw₂
    · intro channel
      rw [payloadOn_append, hretained, payloadOn_of_forall hchannels, hpayloads]
      rfl
    · rw [payloadBytes_append, hbytes₁, hbytes₂, hoffered]
      omega
    · intro before hbefore
      rw [hdiscarded₂ _ (by rw [hdiscarded₁, hbefore, u64Add_min]), hoffered]
      congr 1
      omega

end OutputWriter

/-! ## Repairing what a crash leaves -/

namespace OutputFile

variable {file : OutputFile}

/-- The frames of the beginning of a log. -/
theorem frames_of_take {frames : List Frame} {n : Nat} (hvalid : frameCodec.ValidFrom 0 frames)
    (h : file.bytes = outputMagic ++ (frameCodec.encodeAll frames).take n) :
    file.Headed ∧ file.frames = frameCodec.within n frames ∧
      (frameCodec.encodeAll frames).take n
        = frameCodec.encodeAll (frameCodec.within n frames) ++ file.tail := by
  have hdrop : file.bytes.drop 8 = (frameCodec.encodeAll frames).take n := by
    rw [h]
    rfl
  have hparse := frameCodec.parse_take (i := 0) (n := n) hvalid
    (Nat.lt_succ_self ((frameCodec.encodeAll frames).take n).length)
  refine ⟨by rw [Headed, h]; rfl, ?_, ?_⟩
  · rw [OutputFile.frames, hdrop]
    exact hparse.1
  · rw [OutputFile.tail, hdrop]
    exact hparse.2

theorem frames_of_log {frames : List Frame} (hvalid : frameCodec.ValidFrom 0 frames)
    (h : file.bytes = outputMagic ++ frameCodec.encodeAll frames) :
    file.Headed ∧ file.frames = frames ∧ file.tail = [] := by
  obtain ⟨hheaded, hframes, htail⟩ := frames_of_take (n := (frameCodec.encodeAll frames).length)
    hvalid (by rw [List.take_length]; exact h)
  rw [frameCodec.within_self frames (le_refl _)] at hframes htail
  rw [List.take_length] at htail
  exact ⟨hheaded, hframes, List.self_eq_append_right.mp htail⟩

/-- A repaired file is the log of the frames that were found. -/
theorem setLen_validLen (h : file.Headed) :
    (file.setLen file.validLen).bytes = outputMagic ++ frameCodec.encodeAll file.frames := by
  have hlength : (outputMagic ++ frameCodec.encodeAll file.frames).length = file.validLen := by
    rw [List.length_append]
    rfl
  show file.bytes.take file.validLen = _
  conv_lhs => rw [bytes_eq h, ← List.append_assoc, ← hlength]
  exact List.take_left

end OutputFile

/-- **Repairing twice**: a repaired file is not changed again. -/
theorem repairPartial_repaired {file : OutputFile} (h : file.Headed) :
    repairPartial (file.setLen file.validLen)
      = .ok (⟨file.frames.length, payloadBytes file.frames, file.validLen, 0⟩,
          file.setLen file.validLen) := by
  have hvalid : frameCodec.ValidFrom 0 file.frames :=
    (frameCodec.parse_sound ((file.bytes.drop 8).length + 1) 0 (file.bytes.drop 8)).1
  have hbytes := OutputFile.setLen_validLen h
  obtain ⟨hheaded, hframes, -⟩ := OutputFile.frames_of_log hvalid hbytes
  have hlen : (file.setLen file.validLen).validLen = file.validLen := by
    rw [OutputFile.validLen, hframes]
    rfl
  have hlength : (file.setLen file.validLen).bytes.length = file.validLen := by
    rw [hbytes, List.length_append]
    rfl
  have hsame : (file.setLen file.validLen).setLen file.validLen = file.setLen file.validLen := by
    have htake : (file.setLen file.validLen).bytes.take file.validLen
        = (file.setLen file.validLen).bytes := List.take_of_length_le (le_of_eq hlength)
    exact OutputFile.ext htake
  rw [repairPartial_eq hheaded, hlen, hframes, hlength, Nat.sub_self, hsame]

namespace OutputWriter

/-- What a writer has written survives a crash that leaves the given file: repairing it succeeds and
keeps exactly the frames that lie completely in it; a file that is complete has every byte that the
limit let through. -/
structure Survives (w : OutputWriter) (calls : List OutputWrite) (frames : List Frame)
    (file : OutputFile) : Prop where
  repairs : ∃ repair repaired, repairPartial file = .ok (repair, repaired) ∧
    repaired.bytes = outputMagic
      ++ frameCodec.encodeAll (frameCodec.within (file.bytes.length - 8) frames) ∧
    repair.frames = (frameCodec.within (file.bytes.length - 8) frames).length ∧
    repair.payloadBytes = payloadBytes (frameCodec.within (file.bytes.length - 8) frames) ∧
    repair.physicalBytes = repaired.bytes.length ∧
    repairPartial repaired = .ok ({ repair with tailRemoved := 0 }, repaired)
  decodes : file.bytes = w.bytes →
    readAvailableFrames file = .ok frames ∧ Engine.readFrames file = .ok frames ∧
    (∀ channel, payloadOn channel frames = retainedOn channel w.limit.toNat calls) ∧
    w.stats.retainedBytes + w.stats.discardedBytes = offered calls ∧
    w.stats.retainedBytes ≤ w.limit.toNat

theorem repairs_of_take {file : OutputFile} {frames : List Frame}
    (hvalid : frameCodec.ValidFrom 0 frames)
    (h : file.bytes = outputMagic
      ++ (frameCodec.encodeAll frames).take (file.bytes.length - 8)) :
    ∃ repair repaired, repairPartial file = .ok (repair, repaired) ∧
      repaired.bytes = outputMagic
        ++ frameCodec.encodeAll (frameCodec.within (file.bytes.length - 8) frames) ∧
      repair.frames = (frameCodec.within (file.bytes.length - 8) frames).length ∧
      repair.payloadBytes = payloadBytes (frameCodec.within (file.bytes.length - 8) frames) ∧
      repair.physicalBytes = repaired.bytes.length ∧
      repairPartial repaired = .ok ({ repair with tailRemoved := 0 }, repaired) := by
  obtain ⟨hheaded, hframes, -⟩ := OutputFile.frames_of_take hvalid h
  have hbytes := OutputFile.setLen_validLen hheaded
  refine ⟨_, _, repairPartial_eq hheaded, ?_, ?_, ?_, ?_, repairPartial_repaired hheaded⟩
  · rw [hbytes, hframes]
  · show file.frames.length = _
    rw [hframes]
  · show payloadBytes file.frames = _
    rw [hframes]
  · rw [hbytes, List.length_append]
    rfl

/-- **Which crashes the output survives**: the file has its header, and, where the file is complete,
the counter of dropped bytes did not overflow. -/
theorem survives_iff (limit : UInt64) (calls : List OutputWrite) :
    ∃ w frames, writeAll calls (create limit) = .ok w ∧
      w.bytes = outputMagic ++ frameCodec.encodeAll frames ∧ frameCodec.ValidFrom 0 frames ∧
      ∀ file : OutputFile, file.bytes <+: w.bytes →
        (w.Survives calls frames file ↔ 8 ≤ file.bytes.length ∧
          (file.bytes = w.bytes → offered calls - limit.toNat ≤ u64Max)) := by
  obtain ⟨w, frames, hwrite, hw, hchannels, hlimit, hbytes, hdiscarded⟩ :=
    (wrote_create limit).writeAll calls
  rw [List.nil_append] at hw
  have hretained := hw.retained
  have hwithin := hw.within
  have hdropped := hdiscarded 0 rfl
  rw [Nat.zero_add] at hdropped
  simp only [payloadBytes_nil, Nat.sub_zero] at hchannels hbytes hdropped
  have hcreate : (create limit).limit = limit := rfl
  rw [hcreate] at hlimit hchannels hbytes hdropped
  refine ⟨w, frames, hwrite, hw.file, hw.valid, fun file hinitial => ⟨fun h => ⟨?_, ?_⟩, ?_⟩⟩
  · -- without its header a file cannot be repaired
    by_contra hshort
    obtain ⟨repair, repaired, hrepair, -⟩ := h.repairs
    have hheaded : ¬ file.Headed := by
      intro hheaded
      have hlength := congrArg List.length hheaded
      rw [List.length_take, show outputMagic.length = 8 from rfl] at hlength
      omega
    obtain ⟨error, herror⟩ := checkMagic_of_not_headed hheaded "bad output header"
    unfold repairPartial readMagic at hrepair
    rw [herror] at hrepair
    cases hrepair
  · intro hcomplete
    obtain ⟨-, -, -, htotal, -⟩ := h.decodes hcomplete
    rw [hretained, hbytes, hdropped] at htotal
    omega
  · rintro ⟨hheader, hcounter⟩
    have htake : file.bytes = outputMagic
        ++ (frameCodec.encodeAll frames).take (file.bytes.length - 8) := by
      conv_lhs => rw [List.prefix_iff_eq_take.mp hinitial, hw.file, List.take_append,
        show outputMagic.length = 8 from rfl,
        List.take_of_length_le (l := outputMagic) (show outputMagic.length ≤ _ from hheader)]
    refine ⟨repairs_of_take hw.valid htake, fun hcomplete => ?_⟩
    obtain ⟨hheaded, hframes, htail⟩ :=
      OutputFile.frames_of_log hw.valid (hcomplete.trans hw.file)
    refine ⟨?_, ?_, ?_, ?_, ?_⟩
    · rw [readAvailableFrames_eq hheaded, hframes]
    · unfold Engine.readFrames
      rw [Engine.scanValidFrames_eq hheaded, htail, if_neg (by decide), hframes]
    · rwa [hlimit]
    · have hfits := hcounter hcomplete
      rw [hretained, hbytes, hdropped]
      omega
    · rw [hretained]
      exact hwithin

/-- The file that a crash leaves before anything of the buffer is written. -/
def emptyFile : OutputFile := ⟨[], by decide⟩

/-- **An empty file cannot be repaired**: the writer holds the header back in its buffer. -/
theorem empty_file_not_repaired :
    writeAll [] (create 1024) = .ok (create 1024) ∧
    emptyFile.bytes <+: (create 1024).bytes ∧
    repairPartial emptyFile = .error .unexpectedEof ∧
    ¬ (create 1024).Survives [] [] emptyFile := by
  have herror : repairPartial emptyFile = .error .unexpectedEof := by rfl
  refine ⟨rfl, List.nil_prefix, herror, fun h => ?_⟩
  obtain ⟨repair, repaired, hrepair, -⟩ := h.repairs
  rw [herror] at hrepair
  cases hrepair

end OutputWriter

end Locron
