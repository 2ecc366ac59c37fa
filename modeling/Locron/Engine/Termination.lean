import Locron.Lib.Runs

set_option autoImplicit false

/-! # Stopping a process

The Unix runner waits for the leader of a process group, for its output, for a request to stop and
for the deadlines of the termination. When the leader exits on its own the loop ends, and the runner
reads the output that is left until every descendant has closed the pipes. It does not look at
requests any more, nor at deadlines (`Attempt.stop_honoured`, `Attempt.ignores_stop`).
-/

namespace Locron.Engine

inductive Stop where
  | cancelled
  | timedOut
deriving DecidableEq, Repr

/-- What an attempt ends with; a failure of the output storage is no outcome. -/
inductive Report where
  | exited
  | stopped (stop : Stop)
  | unconfirmed
  | storageFailure
deriving DecidableEq, Repr

/-- What `killpg` answers. -/
inductive SignalResult where
  | delivered
  | absent
  | refused
deriving DecidableEq, Repr

def SignalResult.deliveredOrAbsent : SignalResult → Bool
  | .delivered | .absent => true
  | .refused => false

/-- The variables of the loop. -/
structure Runner where
  reaped : Bool
  termination : Option Stop
  terminationStage : Nat
  deadline : Bool
  confirmationFailure : Bool
  terminationConfirmed : Bool
  killDelivered : Bool
deriving DecidableEq, Repr

namespace Runner

def initial : Runner := ⟨false, none, 0, false, false, false, false⟩

def loops (r : Runner) : Bool :=
  !(r.confirmationFailure || (r.termination.isNone && r.reaped)
    || (r.termination.isSome && r.terminationConfirmed))

/-- The leader has exited; while a termination is under way the group is looked at. -/
def exit (r : Runner) (absent : Bool) : Runner :=
  { r with
    reaped := true
    terminationConfirmed := if r.termination.isSome then absent else r.terminationConfirmed }

/-- The group is asked to terminate. -/
def terminate (r : Runner) (stop : Stop) : Runner :=
  { r with termination := some stop, terminationStage := 1, deadline := true }

def expire (r : Runner) (absent : Bool) (kill : SignalResult) : Runner :=
  if absent && r.reaped then { r with terminationConfirmed := true, deadline := false }
  else if r.terminationStage = 1 ∧ absent = false then
    { r with killDelivered := kill.deliveredOrAbsent, terminationStage := 2, deadline := true }
  else if r.terminationStage = 1 then { r with terminationStage := 2, deadline := true }
  else if r.reaped && r.killDelivered then
    { r with terminationConfirmed := true, deadline := false }
  else if !absent || !r.reaped then { r with confirmationFailure := true, deadline := false }
  else r

/-- The outcome once the loop has ended. -/
def report (r : Runner) : Report :=
  if r.confirmationFailure then .unconfirmed
  else match r.termination with
    | some stop => .stopped stop
    | none => .exited

end Runner

inductive Event where
  /-- the timeout expires, or cancellation is requested -/
  | request (stop : Stop)
  | output
  /-- output cannot be written, or the leader cannot be waited for -/
  | fault
  | exit (absent : Bool)
  /-- the loop sees a request -/
  | stop (stop : Stop)
  /-- a deadline of the loop -/
  | deadline (absent : Bool) (kill : SignalResult)
  /-- the time of a deadline passes while the pipes are still open -/
  | grace
  /-- the pipes are closed, or not waited for -/
  | finish

/-- A runner with what was asked of it, whether it has signalled the group, how many deadlines have
passed since, and whether the last look at the group found it absent. -/
structure Attempt where
  runner : Runner
  requested : List Stop
  signalled : Bool
  deadlines : Nat
  absent : Bool
  report : Option Report
deriving DecidableEq, Repr

namespace Attempt

def initial : Attempt := ⟨.initial, [], false, 0, false, none⟩

/-- The output that is left is read. -/
def drains (a : Attempt) : Bool := !a.runner.loops && !a.runner.confirmationFailure

def act (a : Attempt) : Event → Option Attempt
  | .request stop =>
    if a.report.isNone then some { a with requested := stop :: a.requested } else none
  | .output => if a.report.isNone then some a else none
  | .fault => if a.report.isNone then some { a with report := some .storageFailure } else none
  | .exit absent =>
    if a.report.isNone ∧ a.runner.loops ∧ ¬a.runner.reaped then
      some { a with
        runner := a.runner.exit absent
        absent := if a.runner.termination.isSome then absent else a.absent }
    else none
  | .stop stop =>
    if a.report.isNone ∧ a.runner.loops ∧ a.runner.termination = none ∧ stop ∈ a.requested then
      some { a with runner := a.runner.terminate stop, signalled := true }
    else none
  | .deadline absent kill =>
    if a.report.isNone ∧ a.runner.loops ∧ a.runner.deadline then
      some { a with
        runner := a.runner.expire absent kill
        deadlines := a.deadlines + 1
        absent := absent }
    else none
  | .grace =>
    if a.report.isNone ∧ a.drains then
      some { a with deadlines := if a.signalled then a.deadlines + 1 else a.deadlines }
    else none
  | .finish =>
    if a.report.isNone ∧ ¬a.runner.loops then some { a with report := some a.runner.report }
    else none

/-- A request is seen before the exit of the leader, the first one does not come while the output
that is left is read, and no descendant keeps the pipes of a stopped attempt open for the time of a
deadline. -/
def heeds (a : Attempt) : Event → Prop
  | .request _ => a.runner.loops = true ∨ a.runner.termination.isSome = true
  | .exit _ => a.requested = [] ∨ a.runner.termination.isSome = true
  | .grace => a.signalled = false
  | _ => True

/-- The leader is reaped, and its group is absent or killed. -/
def Confirmed (a : Attempt) : Prop :=
  a.runner.reaped = true ∧ (a.absent = true ∨ a.runner.killDelivered = true)

structure Sound (a : Attempt) : Prop where
  requested : a.requested ≠ [] → a.runner.termination = none → a.runner.reaped = false
  signalled : a.signalled = a.runner.termination.isSome
  idle : a.runner.termination = none → a.deadlines = 0 ∧ a.runner.deadline = false ∧
    a.runner.terminationConfirmed = false ∧ a.runner.confirmationFailure = false
  stage : a.runner.termination.isSome = true → a.runner.loops = true →
    a.runner.deadline = true ∧ a.runner.terminationStage = a.deadlines + 1 ∧ a.deadlines ≤ 1
  ended : a.runner.termination.isSome = true → a.runner.loops = false → a.deadlines ≤ 2 ∧
    (a.runner.confirmationFailure = false ↔ a.Confirmed)
  reported : ∀ report, a.report = some report → report ≠ .storageFailure →
    a.runner.loops = false ∧ report = a.runner.report

theorem sound_initial : initial.Sound := by
  constructor <;> simp [initial, Runner.initial]

theorem loops_eq_true {r : Runner} : r.loops = true ↔ r.confirmationFailure = false ∧
    (r.termination = none → r.reaped = false) ∧
    (r.termination.isSome = true → r.terminationConfirmed = false) := by
  unfold Runner.loops
  cases r.confirmationFailure <;> cases r.termination <;> simp

/-- A deadline leads to the next one, or it ends the loop with or without a confirmation. -/
theorem expire_spec {r : Runner} {n : Nat} {absent : Bool} {kill : SignalResult}
    (hsome : r.termination.isSome = true) (hloops : r.loops = true)
    (hstage : r.terminationStage = n + 1) :
    let r' := r.expire absent kill
    r'.termination = r.termination ∧ r'.reaped = r.reaped ∧
      ((r'.loops = true ∧ n = 0 ∧ r'.deadline = true ∧ r'.terminationStage = 2) ∨
        (r'.loops = false ∧ (r'.confirmationFailure = false ↔
          r.reaped = true ∧ (absent = true ∨ r'.killDelivered = true)))) := by
  obtain ⟨hfailure, -, hconfirmed⟩ := loops_eq_true.mp hloops
  dsimp only
  unfold Runner.expire
  split_ifs <;> simp_all [Runner.loops]
  -- the second deadline without a delivered signal: absence was excluded for a reaped leader
  grind

theorem Sound.act {a a' : Attempt} {e : Event} (h : a.Sound) (hheeds : a.heeds e)
    (hact : a.act e = some a') : a'.Sound := by
  obtain ⟨hrequested, hsignalled, hidle, hstage, hended, hreported⟩ := h
  -- an attempt without a report has nothing to say about one
  have hnew {p : Report → Prop} (hopen : a.report.isNone = true) (report : Report)
      (h : a.report = some report) : p report := by
    simp [h] at hopen
  cases e with
  | request stop =>
    obtain ⟨hopen, ⟨⟩⟩ := Option.ite_none_right_eq_some.mp hact
    refine ⟨fun _ hnone => ?_, hsignalled, hidle, hstage, hended, hreported⟩
    have hloops := hheeds.resolve_right (by simpa using hnone)
    exact (loops_eq_true.mp hloops).2.1 hnone
  | output =>
    obtain ⟨-, ⟨⟩⟩ := Option.ite_none_right_eq_some.mp hact
    exact ⟨hrequested, hsignalled, hidle, hstage, hended, hreported⟩
  | fault =>
    obtain ⟨-, ⟨⟩⟩ := Option.ite_none_right_eq_some.mp hact
    refine ⟨hrequested, hsignalled, hidle, hstage, hended, ?_⟩
    rintro _ ⟨⟩ hother
    exact absurd rfl hother
  | exit absent =>
    obtain ⟨⟨hopen, hloops, hreaped⟩, ⟨⟩⟩ := Option.ite_none_right_eq_some.mp hact
    obtain ⟨hfailure, -, -⟩ := loops_eq_true.mp hloops
    cases hstop : a.runner.termination with
    | none =>
      have hempty : a.requested = [] := hheeds.resolve_right (by simp [hstop])
      refine ⟨fun h => absurd hempty h, hsignalled, fun _ => ?_, fun h => ?_, fun h => ?_,
        hnew hopen⟩
      · simpa [Runner.exit, hstop] using hidle hstop
      all_goals simp [Runner.exit, hstop] at h
    | some stop =>
      have hsome : a.runner.termination.isSome = true := by rw [hstop, Option.isSome_some]
      refine ⟨fun _ h => ?_, hsignalled, fun h => ?_, fun _ _ => hstage hsome hloops,
        fun _ hover => ?_, hnew hopen⟩
      · cases hstop.symm.trans h
      · cases hstop.symm.trans h
      have habsent : absent = true := by
        by_contra hpresent
        simp [Runner.exit, Runner.loops, hstop, hfailure, hpresent] at hover
      have hfew := (hstage hsome hloops).2.2
      refine ⟨hfew.trans one_le_two, fun _ => ⟨rfl, Or.inl ?_⟩, fun _ => hfailure⟩
      exact habsent
  | stop stop =>
    obtain ⟨⟨hopen, hloops, hnone, -⟩, ⟨⟩⟩ := Option.ite_none_right_eq_some.mp hact
    obtain ⟨hzero, -, hconfirmed, -⟩ := hidle hnone
    have hloops' : (a.runner.terminate stop).loops = true :=
      loops_eq_true.mpr ⟨(loops_eq_true.mp hloops).1, nofun, fun _ => hconfirmed⟩
    refine ⟨fun _ => nofun, rfl, nofun, fun _ _ => ⟨rfl, ?_, ?_⟩, fun _ hover => ?_, hnew hopen⟩
    · show 1 = a.deadlines + 1
      rw [hzero]
    · exact hzero.le.trans (Nat.zero_le 1)
    · cases hloops'.symm.trans hover
  | deadline absent kill =>
    obtain ⟨⟨hopen, hloops, harmed⟩, ⟨⟩⟩ := Option.ite_none_right_eq_some.mp hact
    have hsome : a.runner.termination.isSome = true := by
      by_contra hnone
      rw [(hidle (by simpa using hnone)).2.1] at harmed
      cases harmed
    obtain ⟨-, hnumber, hfew⟩ := hstage hsome hloops
    obtain ⟨hkept, hreaped, hresult⟩ := @expire_spec _ _ absent kill hsome hloops hnumber
    have hnone {p : Prop} (h : (a.runner.expire absent kill).termination = none) : p := by
      simp [hkept ▸ h] at hsome
    refine ⟨fun _ => hnone, hsignalled.trans (congrArg _ hkept.symm), hnone, fun _ hmore => ?_,
      fun _ hover => ⟨Nat.succ_le_succ hfew, ?_⟩, hnew hopen⟩
    · obtain ⟨-, hfirst, hdeadline, htwo⟩ := hresult.resolve_right (by simp [hmore])
      exact ⟨hdeadline, by rw [htwo, hfirst], by rw [hfirst]⟩
    · unfold Confirmed
      rw [hreaped]
      exact (hresult.resolve_left (by simp [hover])).2
  | grace =>
    obtain ⟨-, ⟨⟩⟩ := Option.ite_none_right_eq_some.mp hact
    rw [if_neg (by rw [show a.signalled = false from hheeds]; simp)]
    exact ⟨hrequested, hsignalled, hidle, hstage, hended, hreported⟩
  | finish =>
    obtain ⟨⟨hopen, hloops⟩, ⟨⟩⟩ := Option.ite_none_right_eq_some.mp hact
    refine ⟨hrequested, hsignalled, hidle, hstage, hended, ?_⟩
    rintro _ ⟨⟩ -
    exact ⟨by simpa using hloops, rfl⟩

end Attempt

end Locron.Engine
