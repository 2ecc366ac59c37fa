import Locron.Lib.Runs
import Locron.Output.Recording

set_option autoImplicit false

/-! # Following the output of a run from the command line

`run --wait` polls the files of one attempt of a run after the other, `logs --follow` those of one
attempt. On each poll the complete file is tried first and the partial file then, and `run --wait`
reads the state of the run before. Every read is an action of its own below, so that the attempts
may write, rename and commit in between. The commands are exact, unless a file is renamed between
the two tries or `run --wait` is behind when the run ends (`CliSession.Follows.act`).
-/

namespace Locron

/-- How far a follower is with the files of an attempt. -/
inductive Lookup where
  | begin
  /-- there was no complete file -/
  | missed
  /-- a file was opened when so much of it was visible -/
  | opened (final : Bool) (seen : Nat)
deriving DecidableEq, Repr

/-- The frames of an opened file; a partial file may lack its header. -/
def followOpened (read : OutputFile → Except IoError (List Frame)) (file : OutputFile)
    (final : Bool) : Except IoError (List Frame) :=
  match read file with
  | .ok frames => .ok frames
  | .error .unexpectedEof => if final then .error .unexpectedEof else .ok []
  | .error error => .error error

def Lookup.tryFinal (out : RunOutput) (r : Recording) (n : Nat) : Lookup :=
  if r.isFinal n then .opened true (out.size n) else .missed

/-! ## The commands -/

inductive LogChannel where
  | stdout
  | stderr
  | all
deriving DecidableEq, Repr

def channelSelected : LogChannel → Channel → Bool
  | .all, _ => true
  | .stdout, .stdout => true
  | .stderr, .stderr => true
  | _, _ => false

inductive FollowCommand where
  /-- `run --wait` -/
  | run
  /-- `logs --follow` -/
  | logs (attempt : Nat) (channel : LogChannel)
deriving DecidableEq, Repr

namespace FollowCommand

def channel : FollowCommand → LogChannel
  | .run => .all
  | .logs _ channel => channel

def firstAttempt : FollowCommand → Nat
  | .run => 1
  | .logs attempt _ => attempt

end FollowCommand

inductive CliPhase where
  | idle
  /-- the state of the run was read, by `run --wait` only -/
  | looking (terminal : Bool) (lookup : Lookup)
  | done
  | failed
deriving DecidableEq, Repr

structure CliFollower where
  command : FollowCommand
  attempt : Nat
  emitted : Nat
  phase : CliPhase
  delivered : List (Nat × Frame)
  reports : Nat
deriving DecidableEq, Repr

namespace CliFollower

def start (command : FollowCommand) : CliFollower :=
  ⟨command, command.firstAttempt, 0, .idle, [], 0⟩

/-- What follows a read: new frames are written out, then the command ends, goes on to the next
attempt, or polls again. -/
def emit (f : CliFollower) (terminal : Bool) (frames : List Frame) (finalized : Bool) :
    CliFollower :=
  -- attempt output regressed
  if frames.length < f.emitted then { f with phase := .failed }
  else
    let fresh := (frames.drop f.emitted).filter
      (fun x => channelSelected f.command.channel x.channel)
    let f := { f with
      emitted := frames.length
      delivered := f.delivered ++ fresh.map (Prod.mk f.attempt) }
    match f.command with
    | .run =>
      if terminal then { f with phase := .done, reports := f.reports + 1 }
      else if finalized then
        if f.attempt < 65535 then { f with attempt := f.attempt + 1, emitted := 0, phase := .idle }
        else { f with phase := .failed }
      else { f with phase := .idle }
    | .logs _ _ =>
      if finalized then { f with phase := .done, reports := f.reports + 1 }
      else { f with phase := .idle }

end CliFollower

inductive CliAction where
  | write (a : WriteAction)
  | poll
  | tryFinal
  | tryPartial
  /-- so much of the opened file is visible at the end of the read -/
  | read (visible : Nat)
deriving DecidableEq, Repr

/-- A run and a command that follows it. -/
structure CliSession where
  recording : Recording
  follower : CliFollower
deriving DecidableEq, Repr

namespace CliSession

variable (out : RunOutput)

def initial (command : FollowCommand) : CliSession := ⟨.initial, .start command⟩

def act (s : CliSession) : CliAction → Option CliSession
  | .write a => (s.recording.write out a).map (fun r => { s with recording := r })
  | .poll =>
    match s.follower.phase with
    | .idle => some { s with follower := { s.follower with
        phase := .looking (s.follower.command = .run && s.recording.terminal out) .begin } }
    | _ => none
  | .tryFinal =>
    match s.follower.phase with
    | .looking terminal .begin => some { s with follower := { s.follower with
        phase := .looking terminal (.tryFinal out s.recording s.follower.attempt) } }
    | _ => none
  | .tryPartial =>
    match s.follower.phase with
    | .looking terminal .missed =>
      match s.recording.growing? s.follower.attempt with
      | some visible => some { s with follower := { s.follower with
          phase := .looking terminal (.opened false visible) } }
      | none => some { s with follower := s.follower.emit terminal [] false }
    | _ => none
  | .read visible =>
    match s.follower.phase with
    | .looking terminal (.opened final seen) =>
      if seen ≤ visible ∧ visible ≤ s.recording.visible out s.follower.attempt then
        match followOpened Engine.readFrames (out.file s.follower.attempt visible) final with
        | .ok frames => some { s with follower := s.follower.emit terminal frames final }
        | .error _ => some { s with follower := { s.follower with phase := .failed } }
      else none
    | _ => none

/-- The file that the command looks for is not renamed between its two tries, and `run --wait` is
not behind when it reads that the run has ended. -/
def undisturbed (s : CliSession) : CliAction → Prop
  | .write .rename => ∀ terminal, s.follower.phase = .looking terminal .missed →
      s.follower.attempt ≠ s.recording.number
  | .poll => s.follower.command = .run → s.recording.terminal out = true →
      out.attempts ≤ s.follower.attempt
  | _ => True

def Reaches (command : FollowCommand) (allowed : CliSession → CliAction → Prop) (s : CliSession) :
    Prop :=
  Runs.Reaches (act out) allowed (· = initial command) s

end CliSession

/-! ## What is to be delivered -/

namespace RunOutput

variable (out : RunOutput)

/-- The first frames of each attempt, in order. -/
def sent (counts : Nat → Nat) : List (Nat × Frame) :=
  (List.range' 1 out.attempts).flatMap (fun n => ((out.logs n).take (counts n)).map (Prod.mk n))

def everything : List (Nat × Frame) :=
  (List.range' 1 out.attempts).flatMap (fun n => (out.logs n).map (Prod.mk n))

/-- An attempt is begun only after the ones before are complete. -/
def Orderly (counts : Nat → Nat) : Prop :=
  ∀ n m, 0 < n → n < m → counts m ≠ 0 → counts n = (out.logs n).length

variable {out} {counts : Nat → Nat}

theorem sent_of_complete (h : ∀ n, 0 < n → n ≤ out.attempts → counts n = (out.logs n).length) :
    out.sent counts = out.everything := by
  refine List.flatMap_congr fun n hn => ?_
  have hmem := List.mem_range'_1.mp hn
  rw [h n (by omega) (by omega), List.take_length]

theorem Orderly.sent_initial (h : out.Orderly counts) : out.sent counts <+: out.everything := by
  unfold sent everything
  -- the range is kept general: below an attempt that is begun all are complete
  have hrange : ∀ len first, 0 < first →
      (List.range' first len).flatMap (fun n => ((out.logs n).take (counts n)).map (Prod.mk n))
        <+: (List.range' first len).flatMap (fun n => (out.logs n).map (Prod.mk n)) := by
    intro len
    induction len with
    | zero => exact fun _ _ => List.nil_prefix
    | succ len ih =>
      intro first hfirst
      rw [List.range'_succ, List.flatMap_cons, List.flatMap_cons]
      by_cases hcomplete : counts first = (out.logs first).length
      · rw [hcomplete, List.take_length]
        exact (List.prefix_append_right_inj _).mpr (ih (first + 1) (Nat.succ_pos first))
      have hnil : (List.range' (first + 1) len).flatMap
          (fun n => ((out.logs n).take (counts n)).map (Prod.mk n)) = [] := by
        refine List.flatMap_eq_nil_iff.mpr fun m hm => ?_
        have hlt := (List.mem_range'_1.mp hm).1
        have hzero : counts m = 0 := by
          by_contra hne
          exact hcomplete (h first m hfirst (by omega) hne)
        rw [hzero, List.take_zero, List.map_nil]
      rw [hnil, List.append_nil]
      exact ((List.take_prefix _ _).map _).trans (List.prefix_append _ _)
  exact hrange out.attempts 1 Nat.one_pos

/-- The frames between two counts. -/
theorem drop_take_eq {c c' : Nat} (h : c ≤ c') (l : List Frame) :
    l.take c ++ (l.take c').drop c = l.take c' := by
  have htake : l.take c = (l.take c').take c := by rw [List.take_take, Nat.min_eq_left h]
  rw [htake, List.take_append_drop]

/-- **Delivering more of an attempt** adds to what was sent, if nothing of a later one was. -/
theorem sent_update {n c : Nat} (hn : 0 < n) (hle : counts n ≤ c)
    (hbeyond : out.attempts < n → c = 0) (hlast : counts n < c → ∀ m, n < m → counts m = 0) :
    out.sent (Function.update counts n c)
      = out.sent counts ++ (((out.logs n).take c).drop (counts n)).map (Prod.mk n) := by
  rcases lt_or_eq_of_le hle with hlt | heq
  · have hbound : n ≤ out.attempts := by
      by_contra hgt
      rw [hbeyond (by omega)] at hlt
      exact Nat.not_lt_zero _ hlt
    have hsplit : List.range' 1 out.attempts
        = List.range' 1 (n - 1) ++ (n :: List.range' (n + 1) (out.attempts - n)) := by
      have hlen : out.attempts = n - 1 + (out.attempts - n + 1) := by omega
      conv_lhs => rw [hlen, ← List.range'_append_1]
      rw [show 1 + (n - 1) = n by omega, List.range'_succ]
    have hbefore : ∀ m ∈ List.range' 1 (n - 1), Function.update counts n c m = counts m := by
      intro m hm
      have hmem := List.mem_range'_1.mp hm
      exact Function.update_of_ne (by omega) _ _
    have hafter : ∀ m ∈ List.range' (n + 1) (out.attempts - n), counts m = 0 ∧
        Function.update counts n c m = 0 := by
      intro m hm
      have hmem := List.mem_range'_1.mp hm
      have hzero := hlast hlt m (by omega)
      exact ⟨hzero, by rw [Function.update_of_ne (by omega), hzero]⟩
    have hnil : ∀ f : Nat → Nat, (∀ m ∈ List.range' (n + 1) (out.attempts - n), f m = 0) →
        (List.range' (n + 1) (out.attempts - n)).flatMap
          (fun m => ((out.logs m).take (f m)).map (Prod.mk m)) = [] := by
      intro f hf
      refine List.flatMap_eq_nil_iff.mpr fun m hm => ?_
      rw [hf m hm, List.take_zero, List.map_nil]
    have hfront : (List.range' 1 (n - 1)).flatMap
          (fun m => ((out.logs m).take (Function.update counts n c m)).map (Prod.mk m))
        = (List.range' 1 (n - 1)).flatMap
          (fun m => ((out.logs m).take (counts m)).map (Prod.mk m)) :=
      List.flatMap_congr fun m hm => by rw [hbefore m hm]
    unfold sent
    rw [hsplit, List.flatMap_append, List.flatMap_append, List.flatMap_cons, List.flatMap_cons,
      hfront, hnil _ (fun m hm => (hafter m hm).1), hnil _ (fun m hm => (hafter m hm).2),
      Function.update_self, List.append_nil, List.append_nil, List.append_assoc, ← List.map_append,
      drop_take_eq hle]
  · have hsame : Function.update counts n c = counts := by
      rw [← heq, Function.update_eq_self]
    have hdrop : ((out.logs n).take c).drop (counts n) = [] := by
      rw [heq]
      exact List.drop_eq_nil_of_le (List.length_take_le _ _)
    rw [hsame, hdrop, List.map_nil, List.append_nil]

end RunOutput

/-! ## Looking for the files of an attempt -/

namespace Lookup

variable {out : RunOutput} {r r' : Recording} {n emitted : Nat}

/-- What a follower that has written out so many frames may rely on. -/
def Holds (out : RunOutput) (r : Recording) (n emitted : Nat) : Lookup → Prop
  | .begin => True
  | .missed => r.isFinal n = false
  | .opened final seen => seen ≤ r.visible out n ∧ emitted ≤ (out.available n seen).length ∧
      (final = true → seen = out.size n ∧ r.isFinal n = true)

theorem Holds.grows {lookup : Lookup} (h : lookup.Holds out r n emitted)
    (hgrows : Recording.Grows out r r') (hmissed : lookup = .missed → r'.isFinal n = false) :
    lookup.Holds out r' n emitted := by
  cases lookup with
  | begin => trivial
  | missed => exact hmissed rfl
  | opened final seen =>
    obtain ⟨hseen, hemitted, hfinal⟩ := h
    exact ⟨le_trans hseen (hgrows.visible n), hemitted,
      fun h => ⟨(hfinal h).1, hgrows.final n (hfinal h).2⟩⟩

theorem tryFinal_holds (h : emitted ≤ (out.available n (r.visible out n)).length) :
    (tryFinal out r n).Holds out r n emitted := by
  unfold tryFinal
  cases hfinal : r.isFinal n with
  | true =>
    have hvisible : r.visible out n = out.size n := Recording.visible_of_final hfinal
    rw [hvisible] at h
    exact ⟨le_of_eq hvisible.symm, h, fun _ => ⟨rfl, hfinal⟩⟩
  | false => exact hfinal

/-- The partial file was not renamed meanwhile. -/
theorem growing_holds (hfinal : r.isFinal n = false)
    (h : emitted ≤ (out.available n (r.visible out n)).length) {visible : Nat}
    (hgrowing : r.growing? n = some visible) : (opened false visible).Holds out r n emitted := by
  have hvisible : r.visible out n = visible := by
    rw [Recording.visible_of_not_final hfinal, hgrowing, Option.getD_some]
  rw [hvisible] at h
  exact ⟨le_of_eq hvisible.symm, h, fun hfalse => absurd hfalse Bool.false_ne_true⟩

theorem available_of_absent (hfinal : r.isFinal n = false) (hgrowing : r.growing? n = none) :
    out.available n (r.visible out n) = [] := by
  rw [Recording.visible_of_not_final hfinal, hgrowing]
  rfl

theorem followOpened_file {read : OutputFile → Except IoError (List Frame)}
    (hread : ∀ n visible, read (out.file n visible)
      = if visible < 8 then .error .unexpectedEof else .ok (out.available n visible))
    {visible : Nat} {final : Bool} (hfinal : final = true → visible = out.size n) :
    followOpened read (out.file n visible) final = .ok (out.available n visible) := by
  unfold followOpened
  rw [hread]
  by_cases hshort : visible < 8
  · have hincomplete : final ≠ true := by
      intro h
      have hsize := out.eight_le_size n
      rw [← hfinal h] at hsize
      omega
    rw [if_pos hshort]
    dsimp only
    rw [if_neg hincomplete, RunOutput.available, if_pos hshort]
  · rw [if_neg hshort]

end Lookup

namespace CliFollower

variable (out : RunOutput)

/-- How much `run --wait` has written out of each attempt. -/
def counts (f : CliFollower) : Nat → Nat := fun n =>
  if n < f.attempt then (out.logs n).length else if n = f.attempt then f.emitted else 0

def selected (command : FollowCommand) (n : Nat) (frames : List Frame) : List (Nat × Frame) :=
  (frames.filter (fun x => channelSelected command.channel x.channel)).map (Prod.mk n)

def expected : FollowCommand → List (Nat × Frame)
  | .run => out.everything
  | .logs n channel => selected (.logs n channel) n (out.logs n)

/-- What it has delivered so far. -/
def sofar (f : CliFollower) : List (Nat × Frame) :=
  match f.command with
  | .run => out.sent (f.counts out)
  | .logs n channel => selected (.logs n channel) n ((out.logs n).take f.emitted)

end CliFollower

namespace CliFollower

variable {f : CliFollower} {frames : List Frame}

theorem emit_run (hcommand : f.command = .run) (hle : f.emitted ≤ frames.length) {finalized : Bool}
    (hattempt : finalized = true → f.attempt < 65535) (terminal : Bool) :
    f.emit terminal frames finalized =
      let f := { f with
        emitted := frames.length
        delivered := f.delivered ++ (frames.drop f.emitted).map (Prod.mk f.attempt) }
      if terminal then { f with phase := .done, reports := f.reports + 1 }
      else if finalized then { f with attempt := f.attempt + 1, emitted := 0, phase := .idle }
      else { f with phase := .idle } := by
  have hall : (frames.drop f.emitted).filter
      (fun x => channelSelected f.command.channel x.channel) = frames.drop f.emitted := by
    rw [hcommand]
    exact List.filter_eq_self.mpr (fun _ _ => rfl)
  unfold emit
  rw [if_neg (not_lt.mpr hle), hall]
  dsimp only
  rw [hcommand]
  dsimp only
  cases terminal with
  | true => rfl
  | false =>
    cases finalized with
    | true => rw [if_pos (hattempt rfl)]
    | false => rfl

theorem phase_emit_run (hcommand : f.command = .run) (hle : f.emitted ≤ frames.length)
    (finalized : Bool) : (f.emit true frames finalized).phase = .done := by
  unfold emit
  rw [if_neg (not_lt.mpr hle)]
  dsimp only
  rw [hcommand]
  rfl

theorem emit_logs {n : Nat} {channel : LogChannel} (hcommand : f.command = .logs n channel)
    (hle : f.emitted ≤ frames.length) (terminal finalized : Bool) :
    f.emit terminal frames finalized =
      let f := { f with
        emitted := frames.length
        delivered := f.delivered ++ selected f.command f.attempt (frames.drop f.emitted) }
      if finalized then { f with phase := .done, reports := f.reports + 1 }
      else { f with phase := .idle } := by
  unfold emit
  rw [if_neg (not_lt.mpr hle)]
  dsimp only
  rw [hcommand]
  rfl

theorem phase_emit_logs {n : Nat} {channel : LogChannel} (hcommand : f.command = .logs n channel)
    (hle : f.emitted ≤ frames.length) (terminal : Bool) :
    (f.emit terminal frames true).phase = .done := by
  rw [emit_logs hcommand hle]
  rfl

theorem counts_emitted {out : RunOutput} {f f' : CliFollower} {c : Nat}
    (hattempt : f'.attempt = f.attempt) (hemitted : f'.emitted = c) :
    f'.counts out = Function.update (f.counts out) f.attempt c := by
  funext n
  unfold counts
  rw [hattempt, hemitted]
  by_cases hn : n = f.attempt
  · rw [hn, if_neg (lt_irrefl _), if_pos rfl, Function.update_self]
  · rw [Function.update_of_ne hn, if_neg hn, if_neg hn]

theorem counts_next {out : RunOutput} {f f' : CliFollower} (hattempt : f'.attempt = f.attempt + 1)
    (hemitted : f'.emitted = 0) :
    f'.counts out = Function.update (f.counts out) f.attempt (out.logs f.attempt).length := by
  funext n
  unfold counts
  rw [hattempt, hemitted, ite_self]
  by_cases hn : n = f.attempt
  · rw [hn, if_pos (Nat.lt_succ_self _), Function.update_self]
  rw [Function.update_of_ne hn, if_neg hn]
  by_cases hlt : n < f.attempt
  · rw [if_pos hlt, if_pos (by omega)]
  · rw [if_neg hlt, if_neg (by omega)]

theorem selected_append (command : FollowCommand) (n : Nat) (frames frames' : List Frame) :
    selected command n (frames ++ frames')
      = selected command n frames ++ selected command n frames' := by
  unfold selected
  rw [List.filter_append, List.map_append]

end CliFollower

namespace CliSession

variable {out : RunOutput} {command : FollowCommand} {s s' : CliSession}

/-- The command is at its attempt, or at one whose predecessors are complete. -/
def AtAttempt (s : CliSession) : FollowCommand → Prop
  | .run => 0 < s.follower.attempt ∧
      ∀ n, 0 < n → n < s.follower.attempt → s.recording.isFinal n = true
  | .logs n _ => s.follower.attempt = n

/-- What holds between the reads of a poll. -/
def PhaseHolds (out : RunOutput) (command : FollowCommand) (s : CliSession) : Prop :=
  match s.follower.phase with
  | .idle => s.follower.reports = 0
  | .looking terminal lookup => s.follower.reports = 0 ∧
      lookup.Holds out s.recording s.follower.attempt s.follower.emitted ∧
      (terminal = true → command = .run ∧ s.recording.terminal out = true ∧
        out.attempts ≤ s.follower.attempt ∧
        ∀ seen, lookup = .opened false seen → out.attempts < s.follower.attempt)
  | .done => s.follower.reports = 1 ∧ s.follower.delivered = CliFollower.expected out command
  | .failed => False

structure Follows (out : RunOutput) (command : FollowCommand) (s : CliSession) : Prop where
  sound : s.recording.Sound out
  command_eq : s.follower.command = command
  attempt : s.AtAttempt command
  emitted : s.follower.emitted
    ≤ (out.available s.follower.attempt (s.recording.visible out s.follower.attempt)).length
  delivered : s.follower.delivered = s.follower.sofar out
  phase : s.PhaseHolds out command

theorem Follows.write {a : WriteAction} {r : Recording} (h : s.Follows out command)
    (hwrite : s.recording.write out a = some r)
    (hrename : a = .rename → ∀ terminal, s.follower.phase = .looking terminal .missed →
      s.follower.attempt ≠ s.recording.number) :
    Follows out command { s with recording := r } := by
  have hgrows := Recording.Grows.of_write h.sound hwrite
  refine ⟨h.sound.write hwrite, h.command_eq, ?_, ?_, h.delivered, ?_⟩
  · cases command with
    | run => exact ⟨h.attempt.1, fun n hn hlt => hgrows.final n (h.attempt.2 n hn hlt)⟩
    | logs n channel => exact h.attempt
  · exact le_trans h.emitted (out.available_mono (hgrows.visible _))
  · have hphase := h.phase
    unfold PhaseHolds at hphase ⊢
    dsimp only
    split
    · next heq =>
      rw [heq] at hphase
      exact hphase
    · next terminal lookup heq =>
      rw [heq] at hphase
      obtain ⟨hreports, hlookup, hterminal⟩ := hphase
      refine ⟨hreports, hlookup.grows hgrows ?_, fun ht => ?_⟩
      · rintro rfl
        cases hafter : r.isFinal s.follower.attempt with
        | false => rfl
        | true =>
          obtain ⟨ha, hn⟩ := Recording.isFinal_of_write hwrite h.sound hlookup hafter
          exact absurd hn (hrename ha terminal heq)
      · obtain ⟨hrun, hended, hrest⟩ := hterminal ht
        exact ⟨hrun, hgrows.terminal hended, hrest⟩
    · next heq =>
      rw [heq] at hphase
      exact hphase
    · next heq =>
      rw [heq] at hphase
      exact hphase

/-- An attempt that is never started has no output. -/
theorem available_of_beyond (hsound : s.recording.Sound out) {n : Nat} (hn : out.attempts < n) :
    out.available n (s.recording.visible out n) = [] := by
  have hnumber := hsound.number
  refine Lookup.available_of_absent (Recording.isFinal_eq_false_iff.mpr (Or.inr (Or.inl ?_))) ?_
  · omega
  · exact if_neg (by omega)

/-- What `run --wait` has written out after a read. -/
theorem sofar_run {f : CliFollower} {c : Nat} (hpos : 0 < f.attempt) (hle : f.emitted ≤ c)
    (hbeyond : out.attempts < f.attempt → c = 0) :
    out.sent (Function.update (f.counts out) f.attempt c)
      = out.sent (f.counts out)
        ++ (((out.logs f.attempt).take c).drop f.emitted).map (Prod.mk f.attempt) := by
  have hcount : f.counts out f.attempt = f.emitted := by
    unfold CliFollower.counts
    rw [if_neg (lt_irrefl _), if_pos rfl]
  have hlater : ∀ m, f.attempt < m → f.counts out m = 0 := by
    intro m hm
    unfold CliFollower.counts
    rw [if_neg (by omega), if_neg (by omega)]
  rw [RunOutput.sent_update hpos (hcount.symm ▸ hle) hbeyond (fun _ => hlater), hcount]

/-- **After a read** the command has written out what it found, and is where it should be. -/
theorem Follows.emit (h : s.Follows out command) {terminal finalized : Bool} {lookup : Lookup}
    {visible : Nat} (hphase : s.follower.phase = .looking terminal lookup)
    (hle : s.follower.emitted ≤ (out.available s.follower.attempt visible).length)
    (hvisible : visible ≤ s.recording.visible out s.follower.attempt)
    (hfinal : finalized = true → visible = out.size s.follower.attempt ∧
      s.recording.isFinal s.follower.attempt = true)
    (hincomplete : terminal = true → finalized = false → out.attempts < s.follower.attempt) :
    Follows out command { s with
      follower :=
        s.follower.emit terminal (out.available s.follower.attempt visible) finalized } := by
  have hreports : s.follower.reports = 0 ∧ (terminal = true → command = .run ∧
      out.attempts ≤ s.follower.attempt) := by
    have hholds := h.phase
    unfold PhaseHolds at hholds
    rw [hphase] at hholds
    exact ⟨hholds.1, fun ht => ⟨(hholds.2.2 ht).1, (hholds.2.2 ht).2.2.1⟩⟩
  have htake := out.available_eq_take s.follower.attempt visible
  have havailable := out.available_mono (n := s.follower.attempt) hvisible
  have hcomplete : finalized = true →
      out.available s.follower.attempt visible = out.logs s.follower.attempt := by
    intro hf
    rw [(hfinal hf).1, out.available_size]
  cases command with
  | run =>
    obtain ⟨hpos, hbefore⟩ := h.attempt
    have hsmall : finalized = true → s.follower.attempt < 65535 := by
      intro hf
      have hle := (Recording.isFinal_iff.mp (hfinal hf).2).2
      have hnumber := h.sound.number
      have hfew := out.few
      omega
    have hbeyond : out.attempts < s.follower.attempt →
        (out.available s.follower.attempt visible).length = 0 := by
      intro hlt
      rw [available_of_beyond h.sound hlt, List.length_nil] at havailable
      omega
    have hsofar := sofar_run hpos hle hbeyond
    rw [← htake] at hsofar
    have hdelivered : s.follower.delivered = out.sent (s.follower.counts out) := by
      rw [h.delivered, CliFollower.sofar, h.command_eq]
    rw [CliFollower.emit_run h.command_eq hle hsmall]
    dsimp only
    rw [hdelivered, ← hsofar]
    cases terminal with
    | true =>
      rw [if_pos rfl]
      refine ⟨h.sound, h.command_eq, h.attempt, havailable, ?_, ?_⟩
      · dsimp only [CliFollower.sofar]
        rw [h.command_eq]
        exact congrArg out.sent (Eq.symm (CliFollower.counts_emitted rfl rfl))
      · refine ⟨congrArg (· + 1) hreports.1, RunOutput.sent_of_complete fun n hn hattempts => ?_⟩
        have hattempt := (hreports.2 rfl).2
        by_cases heq : n = s.follower.attempt
        · have hf : finalized = true := by
            by_contra hf
            have hlt := hincomplete rfl (Bool.not_eq_true _ ▸ hf)
            omega
          rw [heq, Function.update_self, hcomplete hf]
        · rw [Function.update_of_ne heq]
          exact if_pos (by omega)
    | false =>
      rw [if_neg Bool.false_ne_true]
      cases finalized with
      | true =>
        rw [if_pos rfl, hcomplete rfl]
        refine ⟨h.sound, h.command_eq, ⟨Nat.succ_pos _, fun n hn hlt => ?_⟩, Nat.zero_le _, ?_,
          hreports.1⟩
        · rcases Nat.lt_succ_iff_lt_or_eq.mp hlt with hlt | rfl
          · exact hbefore n hn hlt
          · exact (hfinal rfl).2
        · dsimp only [CliFollower.sofar]
          rw [h.command_eq]
          exact congrArg out.sent (Eq.symm (CliFollower.counts_next rfl rfl))
      | false =>
        rw [if_neg Bool.false_ne_true]
        refine ⟨h.sound, h.command_eq, h.attempt, havailable, ?_, hreports.1⟩
        dsimp only [CliFollower.sofar]
        rw [h.command_eq]
        exact congrArg out.sent (Eq.symm (CliFollower.counts_emitted rfl rfl))
  | logs n channel =>
    obtain rfl : s.follower.attempt = n := h.attempt
    have hdelivered : s.follower.delivered ++ CliFollower.selected s.follower.command
          s.follower.attempt ((out.available s.follower.attempt visible).drop s.follower.emitted)
        = CliFollower.selected (.logs s.follower.attempt channel) s.follower.attempt
          ((out.logs s.follower.attempt).take
            (out.available s.follower.attempt visible).length) := by
      rw [h.delivered, CliFollower.sofar, h.command_eq]
      dsimp only
      rw [← CliFollower.selected_append]
      conv_lhs => rw [htake, RunOutput.drop_take_eq hle]
    rw [CliFollower.emit_logs h.command_eq hle, hdelivered]
    dsimp only
    cases finalized with
    | true =>
      rw [if_pos rfl]
      refine ⟨h.sound, h.command_eq, rfl, havailable, ?_, congrArg (· + 1) hreports.1, ?_⟩
      · dsimp only [CliFollower.sofar]
        rw [h.command_eq]
      · dsimp only [CliFollower.expected]
        rw [hcomplete rfl, List.take_length]
    | false =>
      rw [if_neg Bool.false_ne_true]
      refine ⟨h.sound, h.command_eq, rfl, havailable, ?_, hreports.1⟩
      dsimp only [CliFollower.sofar]
      rw [h.command_eq]

/-- Only the phase of a poll changes. -/
theorem Follows.setPhase (h : s.Follows out command) {terminal : Bool} {lookup : Lookup}
    (hreports : s.follower.reports = 0)
    (hlookup : lookup.Holds out s.recording s.follower.attempt s.follower.emitted)
    (hterminal : terminal = true → command = .run ∧ s.recording.terminal out = true ∧
      out.attempts ≤ s.follower.attempt ∧
      ∀ seen, lookup = .opened false seen → out.attempts < s.follower.attempt) :
    Follows out command { s with
      follower := { s.follower with phase := .looking terminal lookup } } :=
  ⟨h.sound, h.command_eq, h.attempt, h.emitted, h.delivered, hreports, hlookup, hterminal⟩

theorem Follows.looking (h : s.Follows out command) {terminal : Bool} {lookup : Lookup}
    (hphase : s.follower.phase = .looking terminal lookup) :
    s.follower.reports = 0 ∧
      lookup.Holds out s.recording s.follower.attempt s.follower.emitted ∧
      (terminal = true → command = .run ∧ s.recording.terminal out = true ∧
        out.attempts ≤ s.follower.attempt ∧
        ∀ seen, lookup = .opened false seen → out.attempts < s.follower.attempt) := by
  have hholds := h.phase
  unfold PhaseHolds at hholds
  rwa [hphase] at hholds

/-- **Every action keeps the command exact.** -/
theorem Follows.act {a : CliAction} (h : s.Follows out command) (ha : s.undisturbed out a)
    (hact : s.act out a = some s') : s'.Follows out command := by
  cases a with
  | write a =>
    obtain ⟨r, hwrite, rfl⟩ := Option.map_eq_some_iff.mp hact
    refine h.write hwrite ?_
    rintro rfl
    exact ha
  | poll =>
    simp only [CliSession.act] at hact
    split at hact
    · next hphase =>
      cases hact
      have hreports := h.phase
      unfold PhaseHolds at hreports
      rw [hphase] at hreports
      refine h.setPhase hreports trivial fun ht => ?_
      simp only [Bool.and_eq_true, decide_eq_true_eq] at ht
      exact ⟨h.command_eq.symm.trans ht.1, ht.2, ha ht.1 ht.2, fun _ hopened => by cases hopened⟩
    · cases hact
  | tryFinal =>
    simp only [CliSession.act] at hact
    split at hact
    · next terminal hphase =>
      cases hact
      obtain ⟨hreports, -, hterminal⟩ := h.looking hphase
      refine h.setPhase hreports (Lookup.tryFinal_holds h.emitted) fun ht => ?_
      obtain ⟨hrun, hended, hattempt, -⟩ := hterminal ht
      refine ⟨hrun, hended, hattempt, fun seen hopened => ?_⟩
      unfold Lookup.tryFinal at hopened
      split at hopened <;> cases hopened
    · cases hact
  | tryPartial =>
    simp only [CliSession.act] at hact
    split at hact
    · next terminal hphase =>
      obtain ⟨hreports, hmissed, hterminal⟩ := h.looking hphase
      have hfinal : s.recording.isFinal s.follower.attempt = false := hmissed
      -- a run that has ended has all its complete files
      have hbeyond : terminal = true → out.attempts < s.follower.attempt := by
        intro ht
        obtain ⟨hrun, hended, hattempt, -⟩ := hterminal ht
        by_contra hle
        have hpos : 0 < s.follower.attempt := lt_of_lt_of_le out.started hattempt
        rw [h.sound.isFinal_of_terminal hended hpos (by omega)] at hfinal
        cases hfinal
      split at hact
      · next visible hgrowing =>
        cases hact
        refine h.setPhase hreports (Lookup.growing_holds hfinal h.emitted hgrowing) fun ht => ?_
        obtain ⟨hrun, hended, hattempt, -⟩ := hterminal ht
        exact ⟨hrun, hended, hattempt, fun _ _ => hbeyond ht⟩
      · next hgrowing =>
        cases hact
        have hnone : out.available s.follower.attempt
            (s.recording.visible out s.follower.attempt) = [] :=
          Lookup.available_of_absent hfinal hgrowing
        rw [← hnone]
        exact h.emit hphase h.emitted (le_refl _) (fun hf => absurd hf Bool.false_ne_true)
          (fun ht _ => hbeyond ht)
    · cases hact
  | read visible =>
    simp only [CliSession.act] at hact
    split at hact
    · next terminal final seen hphase =>
      obtain ⟨⟨hseen, hvisible⟩, hact⟩ := Option.ite_none_right_eq_some.mp hact
      obtain ⟨hreports, ⟨-, hemitted, hfinal⟩, hterminal⟩ := h.looking hphase
      have hsize : final = true → visible = out.size s.follower.attempt ∧
          s.recording.isFinal s.follower.attempt = true := by
        intro hf
        refine ⟨le_antisymm ?_ ?_, (hfinal hf).2⟩
        · exact le_trans hvisible (h.sound.visible_le _)
        · exact (hfinal hf).1 ▸ hseen
      rw [Lookup.followOpened_file out.readFrames_file (fun hf => (hsize hf).1)] at hact
      cases hact
      refine h.emit hphase (le_trans hemitted (out.available_mono hseen)) hvisible hsize ?_
      rintro ht rfl
      exact (hterminal ht).2.2.2 seen rfl
    · cases hact

end CliSession

namespace CliSession

variable {out : RunOutput} {command : FollowCommand} {s s' : CliSession}

theorem orderly_counts (f : CliFollower) : out.Orderly (f.counts out) := by
  intro n m _ hlt hne
  unfold CliFollower.counts at hne ⊢
  have hle : m ≤ f.attempt := by
    by_contra hgt
    rw [if_neg (by omega), if_neg (by omega)] at hne
    exact hne rfl
  exact if_pos (by omega)

theorem Follows.delivered_prefix (h : s.Follows out command) :
    s.follower.delivered <+: CliFollower.expected out command := by
  rw [h.delivered]
  unfold CliFollower.sofar
  rw [h.command_eq]
  cases command with
  | run => exact (orderly_counts s.follower).sent_initial
  | logs n channel => exact ((List.take_prefix _ _).filter _).map _

/-- The actions of the command itself. -/
def own (_ : CliSession) : CliAction → Prop
  | .write _ => False
  | _ => True

/-- There is nothing left to wait for. -/
def Over (out : RunOutput) (s : CliSession) : FollowCommand → Prop
  | .run => s.recording.terminal out = true ∧ out.attempts ≤ s.follower.attempt
  | .logs n _ => s.recording.isFinal n = true

/-- **A poll that begins when everything is over is the last.** -/
theorem Follows.ends (h : s.Follows out command) (hphase : s.follower.phase = .idle)
    (hover : s.Over out command) :
    ∃ s', Runs.Reaches (CliSession.act out) own (· = s) s' ∧ s'.follower.phase = .done := by
  let terminal : Bool := s.follower.command = .run && s.recording.terminal out
  let looking : Lookup → CliSession := fun lookup =>
    { s with follower := { s.follower with phase := .looking terminal lookup } }
  have hpoll : s.act out .poll = some (looking .begin) := by
    simp only [CliSession.act, hphase, looking, terminal]
  have hstart : Runs.Reaches (CliSession.act out) own (· = s) s := .start rfl
  have hbegun := hstart.step (show own s .poll from trivial) hpoll
  have htried : Runs.Reaches (CliSession.act out) own (· = s)
      (looking (.tryFinal out s.recording s.follower.attempt)) :=
    hbegun.step (show own _ .tryFinal from trivial) rfl
  have hrun : command = .run → terminal = true := by
    rintro rfl
    simp only [terminal, h.command_eq, hover.1, decide_true, Bool.and_self]
  cases hfinal : s.recording.isFinal s.follower.attempt with
  | true =>
    have hopened : Lookup.tryFinal out s.recording s.follower.attempt
        = .opened true (out.size s.follower.attempt) := if_pos hfinal
    have hvisible : s.recording.visible out s.follower.attempt = out.size s.follower.attempt :=
      Recording.visible_of_final hfinal
    have hle := h.emitted
    rw [hvisible] at hle
    rw [hopened] at htried
    have hread : (looking (.opened true (out.size s.follower.attempt))).act out
        (.read (out.size s.follower.attempt)) = some ⟨s.recording,
          (looking (.opened true (out.size s.follower.attempt))).follower.emit terminal
            (out.available s.follower.attempt (out.size s.follower.attempt)) true⟩ := by
      simp only [CliSession.act, looking]
      rw [if_pos ⟨le_refl _, le_of_eq hvisible.symm⟩,
        Lookup.followOpened_file out.readFrames_file (fun _ => rfl)]
    refine ⟨_, htried.step (show own _ (.read _) from trivial) hread, ?_⟩
    cases command with
    | run =>
      rw [hrun rfl]
      exact CliFollower.phase_emit_run h.command_eq hle true
    | logs n channel => exact CliFollower.phase_emit_logs h.command_eq hle terminal
  | false =>
    -- only an attempt beyond the last one can be without a complete file
    have hbeyond : command = .run ∧ out.attempts < s.follower.attempt := by
      cases command with
      | run =>
        refine ⟨rfl, ?_⟩
        by_contra hle
        rw [h.sound.isFinal_of_terminal hover.1 h.attempt.1 (by omega)] at hfinal
        cases hfinal
      | logs n channel =>
        have hattempt : s.follower.attempt = n := h.attempt
        rw [hattempt, show s.recording.isFinal n = true from hover] at hfinal
        cases hfinal
    obtain ⟨rfl, hbeyond⟩ := hbeyond
    have hmissed : Lookup.tryFinal out s.recording s.follower.attempt = .missed :=
      if_neg (by rw [hfinal]; exact Bool.false_ne_true)
    have hgrowing : s.recording.growing? s.follower.attempt = none :=
      if_neg (by have hnumber := h.sound.number; omega)
    have hzero : s.follower.emitted ≤ ([] : List Frame).length := by
      have hle := h.emitted
      rwa [Lookup.available_of_absent hfinal hgrowing] at hle
    rw [hmissed] at htried
    have hincomplete : (looking .missed).act out .tryPartial
        = some ⟨s.recording, (looking .missed).follower.emit terminal [] false⟩ := by
      simp only [CliSession.act, looking, hgrowing]
    refine ⟨_, htried.step (show own _ .tryPartial from trivial) hincomplete, ?_⟩
    rw [hrun rfl]
    exact CliFollower.phase_emit_run h.command_eq hzero false

end CliSession

end Locron
