import Locron.Store.State

set_option autoImplicit false

/-! # Attempts and cancellation

Starting and completing attempts, and cancelling runs. The completions check that the attempt is
active; what they write to the run row mostly relies on that.
-/

namespace Locron

/-- Whether an admitted attempt may be spawned. -/
inductive StartDecision where
  | ready
  | cancelledBeforeSpawn
deriving DecidableEq, Repr

/-- The outcome of an attempt, as completion records it. -/
inductive CompletionState where
  | succeeded
  | failed
  | timedOut
  | cancelled
  | terminationUnconfirmed
deriving DecidableEq, Repr

/-- When and why an attempt is retried. -/
structure RetryPlan where
  notBefore : Int
  classification : String
deriving DecidableEq, Repr

structure AttemptCompletion where
  runId : Uuid
  attemptNumber : Nat
  now : Int
  duration : Int
  state : CompletionState
  exitCode : Option Int
  httpStatus : Option Nat
  httpContentType : Option String
  reason : String
  retry : Option RetryPlan

/-- What the runner reports about an output file. -/
structure OutputRecord where
  runId : Uuid
  attemptNumber : Nat
  retainedPayloadBytes : Int
  physicalBytes : Int
  discardedBytes : Int
  truncated : Bool
deriving DecidableEq, Repr

/-- The table takes no negative counts. -/
def OutputRecord.negative (output : OutputRecord) : Bool :=
  output.retainedPayloadBytes < 0 || output.physicalBytes < 0 || output.discardedBytes < 0

theorem OutputRecord.not_negative {output : OutputRecord}
    (hretained : 0 ≤ output.retainedPayloadBytes)
    (hphysical : 0 ≤ output.physicalBytes) (hdiscarded : 0 ≤ output.discardedBytes) :
    output.negative = false := by
  simp [negative, hretained, hphysical, hdiscarded]

inductive CancelOutcome where
  | cancelledBeforeExecution
  | cancellationRequested
  | acknowledgedUnconfirmed
deriving DecidableEq, Repr

namespace CompletionState

/-- The state of the attempt; an unconfirmed termination is an unknown interruption. -/
def attemptState : CompletionState → AttemptState
  | .succeeded => .succeeded
  | .failed => .failed
  | .timedOut => .timedOut
  | .cancelled => .cancelled
  | .terminationUnconfirmed => .interruptedUnknown

/-- The state of a run that is not retried; an unconfirmed termination leaves it running. -/
def runState : CompletionState → RunState
  | .succeeded => .succeeded
  | .failed => .failed
  | .timedOut => .timedOut
  | .cancelled => .cancelled
  | .terminationUnconfirmed => .running

def text : CompletionState → String
  | .succeeded => "succeeded"
  | .failed => "failed"
  | .timedOut => "timed_out"
  | .cancelled => "cancelled"
  | .terminationUnconfirmed => Locron.terminationUnconfirmed

end CompletionState

namespace AttemptRow

/-- The attempt that an operation addresses, if it is still active. -/
def isActiveOf (run : Uuid) (number : Nat) (a : AttemptRow) : Bool :=
  a.runId = run && a.number = number && a.state.isActive

/-- The attempt that is to be spawned. -/
def isStartingOf (run : Uuid) (number : Nat) (a : AttemptRow) : Bool :=
  a.runId = run && a.number = number && a.state = .starting

/-- The process of the attempt is about to be spawned. -/
def markRunning (now : Int) (executable : Option String) (a : AttemptRow) : AttemptRow :=
  { a with state := .running, runningAt := some now, resolvedExecutable := executable }

def close (state : AttemptState) (now : Int) (duration : Int) (resultClass message : String)
    (a : AttemptRow) : AttemptRow :=
  { a with
    state := state
    finishedAt := some now
    duration := some duration
    resultClass := some resultClass
    errorMessage := some message }

def complete (c : AttemptCompletion) (a : AttemptRow) : AttemptRow :=
  { a.close c.state.attemptState c.now c.duration c.state.text c.reason with
    exitCode := c.exitCode
    httpStatus := c.httpStatus
    httpContentType := c.httpContentType }

theorem key_markRunning {now : Int} {executable : Option String} (a : AttemptRow) :
    (a.markRunning now executable).key = a.key := rfl

theorem key_close {state : AttemptState} {now duration : Int} {resultClass message : String}
    (a : AttemptRow) : (a.close state now duration resultClass message).key = a.key := rfl

theorem key_complete {c : AttemptCompletion} (a : AttemptRow) : (a.complete c).key = a.key := rfl

end AttemptRow

namespace RunRow

def finish (state : RunState) (reason : String) (now : Int) (r : RunRow) : RunRow :=
  { r with state := state, reason := some reason, finishedAt := some now }

def finishCandidate (state : RunState) (reason : String) (now : Int) (r : RunRow) : RunRow :=
  { r.finish state reason now with replacementCandidate := false }

/-- Sends a run back to wait for its next attempt. -/
def retry (notBefore : Int) (reason : String) (r : RunRow) : RunRow :=
  { r with state := .retryWait, eligibleAt := notBefore, reason := some reason }

/-- Keeps a run whose process may still be alive. -/
def quarantine (r : RunRow) : RunRow :=
  { r with state := .running, reason := some terminationUnconfirmed, finishedAt := none }

def cancelPending (now : Int) (r : RunRow) : RunRow :=
  { r.finishCandidate .cancelled "cancelled by user before execution" now with
    cancellationRequestedAt := some now
    cancellationReason := some "user" }

/-- Asks the runner to stop the run. -/
def requestCancellation (now : Int) (r : RunRow) : RunRow :=
  { r with cancellationRequestedAt := some now, cancellationReason := some "user" }

theorem id_finish {state : RunState} {reason : String} {now : Int} (r : RunRow) :
    (r.finish state reason now).id = r.id := rfl

theorem id_finishCandidate {state : RunState} {reason : String} {now : Int} (r : RunRow) :
    (r.finishCandidate state reason now).id = r.id := rfl

theorem id_retry {notBefore : Int} {reason : String} (r : RunRow) :
    (r.retry notBefore reason).id = r.id := rfl

theorem id_quarantine (r : RunRow) : r.quarantine.id = r.id := rfl

theorem id_cancelPending {now : Int} (r : RunRow) : (r.cancelPending now).id = r.id := rfl

theorem id_requestCancellation {now : Int} (r : RunRow) :
    (r.requestCancellation now).id = r.id := rfl

end RunRow

namespace OutputRow

/-- The artifact that an operation addresses, in one of the given states. -/
def isOf (run : Uuid) (number : Nat) (states : List OutputState) (o : OutputRow) : Bool :=
  o.runId = run && o.attemptNumber = number && states.contains o.state

/-- The artifact was never written. -/
def markMissing (now : Int) (o : OutputRow) : OutputRow :=
  { o with state := .missing, finalizedAt := some now }

/-- The artifact is gone, with all its bytes. -/
def lose (now : Int) (o : OutputRow) : OutputRow :=
  { o.markMissing now with
    retainedPayloadBytes := 0
    physicalBytes := 0
    discardedBytes := 0
    truncated := false
    truncatedAt := none }

/-- The artifact is complete. -/
def finalize (output : OutputRecord) (now : Int) (o : OutputRow) : OutputRow :=
  { o with
    relativePath := s!"{output.runId}/{output.attemptNumber}.log"
    state := .finalized
    retainedPayloadBytes := output.retainedPayloadBytes
    physicalBytes := output.physicalBytes
    discardedBytes := output.discardedBytes
    truncated := output.truncated
    truncatedAt := if output.truncated then some now else none
    finalizedAt := some now }

theorem key_markMissing {now : Int} (o : OutputRow) : (o.markMissing now).key = o.key := rfl

theorem key_lose {now : Int} (o : OutputRow) : (o.lose now).key = o.key := rfl

theorem key_finalize {output : OutputRecord} {now : Int} (o : OutputRow) :
    (o.finalize output now).key = o.key := rfl

end OutputRow

namespace Store

/-! ## Starting -/

/-- The request that reached a run before its process was spawned. -/
def cancelBeforeSpawn (s : Store) (run : RunRow) (number : Nat) (now : Int) (source : String) :
    Except StoreError Store :=
  let reason := if source = "replacement" then "replacement requested before spawn"
    else "cancelled by user before spawn"
  if s.attempts.count (AttemptRow.isActiveOf run.id number) ≠ 1 then
    .error (.conflict "admitted attempt is no longer starting")
  else
    let s := s.updateAttempts (AttemptRow.isActiveOf run.id number)
      (AttemptRow.close .cancelled now 0 "cancelled" reason) AttemptRow.key_close
    let s := s.updateOutputs (OutputRow.isOf run.id number [.pending]) (OutputRow.markMissing now)
      OutputRow.key_markMissing
    let s := s.updateRuns (fun r => r.id = run.id && r.state.isLive)
      (RunRow.finishCandidate .cancelled reason now) RunRow.id_finishCandidate
    let s := s.deleteRetryIntents (fun i => i.runId = run.id)
    let s := s.event now "cancelled_before_spawn" (some run.jobId) (some run.id)
      s!"\x7b\"source\":\"{source}\"\x7d"
    .ok (s.softRemoveAfterOneTimeCompletion run.id now)

/-- Moves an admitted attempt to running, unless its run was cancelled or replaced meanwhile. -/
def markAttemptRunning (s : Store) (run : Uuid) (number : Nat) (now : Int)
    (resolvedExecutable : Option String) : Except StoreError (StartDecision × Store) :=
  match s.runs.find run with
  | none => .error (.notFound (toString run))
  | some r =>
    if !r.state.isLive then
      .error (.conflict "admitted run is no longer at the pre-spawn boundary")
    else
      match r.cancellationReason with
      | some source =>
        (s.cancelBeforeSpawn r number now source).map (fun s => (.cancelledBeforeSpawn, s))
      | none =>
        if r.state = .running then
          if (s.attempts.find (run, number)).map (fun a => a.state) = some .running then
            .ok (.ready, s)
          else .error (.conflict "running run does not match the admitted attempt")
        else
          if s.attempts.count (AttemptRow.isStartingOf run number) ≠ 1 then
            .error (.conflict "admitted attempt is no longer starting")
          else
            let s := s.updateAttempts (AttemptRow.isStartingOf run number)
              (AttemptRow.markRunning now resolvedExecutable) AttemptRow.key_markRunning
            .ok (.ready, s.updateRuns (fun r => r.id = run && r.state = .starting)
              (fun r => { r with state := .running }) (fun _ => rfl))

/-! ## Completing -/

/-- The same unconfirmed termination is already recorded. -/
def terminationCompletionCommitted (s : Store) (c : AttemptCompletion) : Bool :=
  match s.attempts.find (c.runId, c.attemptNumber), s.runs.find c.runId with
  | some a, some r =>
    a.state = .interruptedUnknown && a.finishedAt = some c.now && a.duration = some c.duration
    && a.errorMessage = some c.reason && r.quarantined
  | _, _ => false

def completionAlreadyCommitted (s : Store) (c : AttemptCompletion) : Bool :=
  match s.attempts.find (c.runId, c.attemptNumber), s.runs.find c.runId with
  | some a, some r =>
    a.state = c.state.attemptState && a.finishedAt = some c.now && a.duration = some c.duration
    && a.exitCode = c.exitCode && a.httpStatus = c.httpStatus
    && a.httpContentType = c.httpContentType && a.errorMessage = some c.reason
    && r.reason = some c.reason
    && match c.retry with
      | some plan =>
        r.state = .retryWait && r.eligibleAt = plan.notBefore && r.finishedAt.isNone
        && s.retryIntents.exist (fun i => i.runId = c.runId
          && i.priorAttemptNumber = c.attemptNumber && i.notBefore = plan.notBefore
          && i.classification = plan.classification && i.createdAt = c.now)
      | none =>
        !s.retryIntents.exist (fun i => i.runId = c.runId) && r.state = c.state.runState
        && r.finishedAt = some c.now
  | _, _ => false

/-- Puts a run into quarantine; a replacement that waits for it fails. -/
def completeUnconfirmed (s : Store) (c : AttemptCompletion) : Except StoreError Store :=
  if s.attempts.count (AttemptRow.isActiveOf c.runId c.attemptNumber) ≠ 1 then
    if s.terminationCompletionCommitted c then .ok s
    else .error (.conflict "attempt is not active for quarantine")
  else if c.duration < 0 then .error (.sqlite "CHECK constraint failed: attempts")
  else
    let s := s.updateAttempts (AttemptRow.isActiveOf c.runId c.attemptNumber)
      (AttemptRow.close .interruptedUnknown c.now c.duration terminationUnconfirmed c.reason)
      AttemptRow.key_close
    let s := s.deleteRetryIntents (fun i => i.runId = c.runId)
    match (s.runs.find c.runId).filter (fun r => r.state.isLive) with
    | none => .error (.sqlite "Query returned no rows")
    | some r =>
      let s := s.updateRuns (fun r => r.id = c.runId) RunRow.quarantine RunRow.id_quarantine
      let candidate := fun x : RunRow => x.jobId = r.jobId && x.replacementCandidate
      let s :=
        if r.cancellationReason = some "replacement" then
          (s.deleteRetryIntents (fun i => (s.runs.find i.runId).any candidate)).updateRuns
            (fun x => candidate x && x.state.isPending)
            (RunRow.finishCandidate .failed
              "replacement failed: predecessor termination unconfirmed" c.now)
                RunRow.id_finishCandidate
        else s
      .ok (s.event c.now terminationUnconfirmed (some r.jobId) (some c.runId)
        s!"\x7b\"detail\":\"{c.reason}\"\x7d")

/-- Records the outcome of an attempt. The run row is written without a look at its state. -/
def completeAttempt (s : Store) (c : AttemptCompletion) : Except StoreError Store :=
  if c.state = .terminationUnconfirmed then
    if c.retry.isSome then .error (.conflict "termination-unconfirmed attempts cannot retry")
    else s.completeUnconfirmed c
  else if c.retry.isSome && c.state != .failed && c.state != .timedOut then
    .error (.conflict "retry intent requires a known failed or timed-out attempt")
  else if s.attempts.count (AttemptRow.isActiveOf c.runId c.attemptNumber) ≠ 1 then
    if s.completionAlreadyCommitted c then .ok s
    else .error (.conflict "attempt is not active for completion")
  else if c.duration < 0 || c.httpStatus.any (fun x => x < 100 || 599 < x) then
    .error (.sqlite "CHECK constraint failed: attempts")
  else
    let s := s.updateAttempts (AttemptRow.isActiveOf c.runId c.attemptNumber)
      (AttemptRow.complete c) AttemptRow.key_complete
    match c.retry with
    | some plan =>
      let s := s.updateRuns (fun r => r.id = c.runId) (RunRow.retry plan.notBefore c.reason)
        RunRow.id_retry
      .ok (s.putRetryIntent
        ⟨c.runId, c.attemptNumber, plan.notBefore, plan.classification, c.now⟩)
    | none =>
      let s := s.deleteRetryIntents (fun i => i.runId = c.runId)
      let s := s.updateRuns (fun r => r.id = c.runId)
        (RunRow.finish c.state.runState c.reason c.now) RunRow.id_finish
      .ok (s.softRemoveAfterOneTimeCompletion c.runId c.now)

/-- Records a failure before execution. The candidate flag of the run stays as it is. -/
def completePreExecutionFailure (s : Store) (run : Uuid) (number : Nat)
    (output : Option OutputRecord) (now : Int) (reason : String) : Except StoreError Store :=
  if output.any (fun o => o.runId != run || o.attemptNumber != number) then
    .error (.conflict "output identity does not match admitted attempt")
  else if s.outputs.count (OutputRow.isOf run number [.pending]) ≠ 1 then
    .error (.conflict "admitted output artifact is not pending")
  else if output.any OutputRecord.negative then
    .error (.sqlite "CHECK constraint failed: output_artifacts")
  else if s.attempts.count (AttemptRow.isActiveOf run number) ≠ 1 then
    .error (.conflict "admitted attempt is not active")
  else
    let s := s.updateOutputs (OutputRow.isOf run number [.pending])
      (fun o => match output with
        | some record => o.finalize record now
        | none => o.markMissing now)
      (fun o => by cases output <;> rfl)
    let s := s.updateAttempts (AttemptRow.isActiveOf run number)
      (AttemptRow.close .failed now 0 "failed" reason) AttemptRow.key_close
    let s := s.deleteRetryIntents (fun i => i.runId = run)
    match s.runs.find run with
    | none => .error (.sqlite "Query returned no rows")
    | some r =>
      let s := s.updateRuns (fun r => r.id = run && r.state.isLive)
        (RunRow.finish .failed reason now) RunRow.id_finish
      let s := s.event now "attempt_configuration_failed" (some r.jobId) (some run)
        "\x7b\"retryable\":false\x7d"
      .ok (s.softRemoveAfterOneTimeCompletion run now)

def runnerFailureStates (mayHaveStarted : Bool) : AttemptState × RunState × String :=
  if mayHaveStarted then (.interruptedUnknown, .interruptedUnknown, "interrupted_unknown")
  else (.failed, .failed, "output_preparation_failed")

def applyRunnerFailure (s : Store) (run : Uuid) (number : Nat) (now duration : Int)
    (reason : String) (mayHaveStarted : Bool) : Store :=
  let (attemptState, runState, resultClass) := runnerFailureStates mayHaveStarted
  let s := s.updateOutputs (OutputRow.isOf run number [.pending, .active]) (OutputRow.lose now)
    OutputRow.key_lose
  let s := s.updateAttempts (AttemptRow.isActiveOf run number)
    (AttemptRow.close attemptState now duration resultClass reason) AttemptRow.key_close
  let s := s.updateRuns (fun r => r.id = run && r.state.isLive)
    (RunRow.finishCandidate runState reason now) RunRow.id_finishCandidate
  s.deleteRetryIntents (fun i => i.runId = run)

/-- The failure is recorded in full. -/
def runnerFailureCommitted (s : Store) (run : Uuid) (number : Nat) (reason : String)
    (mayHaveStarted : Bool) : Bool :=
  let (attemptState, runState, resultClass) := runnerFailureStates mayHaveStarted
  match s.attempts.find (run, number), s.runs.find run, s.outputs.find (run, number) with
  | some a, some r, some o =>
    a.state = attemptState && a.resultClass = some resultClass && a.errorMessage = some reason
    && r.state = runState && r.reason = some reason && o.state = .missing
    && !s.retryIntents.exist (fun i => i.runId = run)
  | _, _, _ => false

/-- Records a failure of the runner. If not all three rows were changed, the writes are still
committed when they add up to the recorded failure. -/
def completeRunnerFailure (s : Store) (run : Uuid) (number : Nat) (now : Int) (reason : String)
    (mayHaveStarted : Bool) : Except StoreError Store :=
  let duration := match s.attempts.find (run, number) with
    | none => none
    | some a => some (if mayHaveStarted then max 0 (now - a.runningAt.getD a.startedAt) else 0)
  match duration with
  | none =>
    if mayHaveStarted then .error (.sqlite "Query returned no rows")
    else .error (.conflict "runner failure is not applicable to this attempt")
  | some duration =>
    let after := s.applyRunnerFailure run number now duration reason mayHaveStarted
    if s.outputs.count (OutputRow.isOf run number [.pending, .active]) = 1
        && s.attempts.count (AttemptRow.isActiveOf run number) = 1
        && s.runs.count (fun r => r.id = run && r.state.isLive) = 1 then
      match after.runs.find run with
      | none => .error (.sqlite "Query returned no rows")
      | some r =>
        let after := after.event now
          (if mayHaveStarted then "attempt_infrastructure_interrupted"
            else "attempt_output_preparation_failed") (some r.jobId) (some run)
          s!"\x7b\"retryable\":false,\"execution_may_have_started\":{mayHaveStarted}\x7d"
        .ok (after.softRemoveAfterOneTimeCompletion run now)
    else if after.runnerFailureCommitted run number reason mayHaveStarted then .ok after
    else .error (.conflict "runner failure is not applicable to this attempt")

/-! ## Cancelling -/

def cancellationDecision (r : RunRow) (acknowledge : Bool) : Except StoreError CancelOutcome :=
  if acknowledge then
    if r.quarantined then .ok .acknowledgedUnconfirmed
    else .error (.conflict s!"run {r.id} is not an active termination-unconfirmed quarantine")
  else if r.quarantined then
    .error (.conflict (s!"run {r.id} termination is unconfirmed; repeat cancel with "
      ++ "--acknowledge-unconfirmed to accept the risk and release the quarantine"))
  else
    match r.state with
    | .queued | .retryWait => .ok .cancelledBeforeExecution
    | .starting | .running => .ok .cancellationRequested
    | _ => .error (.conflict s!"run {r.id} is already terminal ({r.state.text})")

def cancelWithAcknowledgement (s : Store) (run : Uuid) (now : Int) (acknowledge : Bool) :
    Except StoreError (CancelOutcome × Store) :=
  match s.runs.find run with
  | none => .error (.notFound (toString run))
  | some r =>
    match cancellationDecision r acknowledge with
    | .error e => .error e
    | .ok .acknowledgedUnconfirmed =>
      let s := s.updateRuns (fun r => r.id = run && r.quarantined)
        (RunRow.finishCandidate .interruptedUnknown
          "termination unconfirmed; risk acknowledged by operator" now) RunRow.id_finishCandidate
      let s := s.deleteRetryIntents (fun i => i.runId = run)
      let s := s.event now "termination_unconfirmed_acknowledged" (some r.jobId) (some run)
        "\x7b\"source\":\"user\",\"risk\":\"process_liveness_unconfirmed\"\x7d"
      .ok (.acknowledgedUnconfirmed, s.softRemoveAfterOneTimeCompletion run now)
    | .ok .cancelledBeforeExecution =>
      let s := s.updateRuns (fun r => r.id = run) (RunRow.cancelPending now) RunRow.id_cancelPending
      let s := s.deleteRetryIntents (fun i => i.runId = run)
      let s := s.event now "run_cancelled" (some r.jobId) (some run)
        "\x7b\"source\":\"user\",\"before_execution\":true\x7d"
      .ok (.cancelledBeforeExecution, s.softRemoveAfterOneTimeCompletion run now)
    | .ok .cancellationRequested =>
      if r.cancellationRequestedAt.isSome then .ok (.cancellationRequested, s)
      else
        let s := s.updateRuns (fun r => r.id = run) (RunRow.requestCancellation now)
          RunRow.id_requestCancellation
        .ok (.cancellationRequested, s.event now "cancellation_requested" (some r.jobId)
          (some run) "\x7b\"source\":\"user\"\x7d")

end Store

end Locron
