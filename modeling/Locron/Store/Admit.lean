import Locron.Store.State

set_option autoImplicit false

/-! # Lifetimes and admission

A daemon lifetime starts by closing what an earlier one left open. Admission selects eligible runs
fairly among the jobs, within the global, the process-local and the per-job limits, and starts an
attempt for each.
-/

namespace Locron

/-- The reason recorded for work that a dead daemon left behind. -/
def lifetimeEnded : String := "scheduler lifetime ended without a durable result"

namespace AttemptRow

/-- The attempt was cut off by the end of its daemon. -/
def interrupt (now : Int) (a : AttemptRow) : AttemptRow :=
  { a with
    state := .interruptedUnknown
    finishedAt := some now
    errorMessage := some lifetimeEnded }

theorem key_interrupt {now : Int} (a : AttemptRow) : (a.interrupt now).key = a.key := rfl

def start (run : Uuid) (number : Nat) (lifetime : Uuid) (now : Int) : AttemptRow where
  runId := run
  number := number
  lifetimeId := lifetime
  state := .starting
  startedAt := now
  runningAt := none
  finishedAt := none
  duration := none
  resolvedExecutable := none
  exitCode := none
  httpStatus := none
  httpContentType := none
  resultClass := none
  errorMessage := none

end AttemptRow

namespace OutputRow

/-- The artifact of a fresh attempt. -/
def pending (run : Uuid) (number : Nat) : OutputRow where
  runId := run
  attemptNumber := number
  relativePath := s!"{run}/{number}.partial"
  state := .pending
  retainedPayloadBytes := 0
  physicalBytes := 0
  discardedBytes := 0
  truncated := false
  truncatedAt := none
  finalizedAt := none
  pruneStartedAt := none
  prunedAt := none

end OutputRow

namespace RunRow

/-- The run was cut off by the end of its daemon. -/
def interrupt (now : Int) (r : RunRow) : RunRow :=
  { r with
    state := .interruptedUnknown
    finishedAt := some now
    reason := some lifetimeEnded }

theorem id_interrupt {now : Int} (r : RunRow) : (r.interrupt now).id = r.id := rfl

/-- Live, and not in quarantine: the work a new lifetime closes. -/
def stale (r : RunRow) : Bool := r.state.isLive && r.reason != some terminationUnconfirmed

end RunRow

namespace Store

/-! ## Lifetimes -/

/-- Begins a daemon lifetime; returns the number of attempts that were cut off. -/
def beginLifetime (s : Store) (id : Uuid) (now : Int) : Except StoreError (Nat × Store) :=
  let staleRuns := (s.runs.rows.filter RunRow.stale).map (fun r => r.id)
  let active := fun a : AttemptRow => a.state.isActive
  let s := s.deleteRetryIntents
    (fun i => s.attempts.exist (fun a => a.runId = i.runId && active a))
  let stale := s.attempts.count active
  let s := s.updateAttempts active (AttemptRow.interrupt now) AttemptRow.key_interrupt
  let s := s.updateRuns RunRow.stale (RunRow.interrupt now) RunRow.id_interrupt
  let s := staleRuns.foldl (fun s run => s.softRemoveAfterOneTimeCompletion run now) s
  let lifetimes := s.lifetimes.update (fun l => l.endedAt.isNone)
    (fun l => { l with endedAt := some now, exitClass := some "stale" }) (fun _ => rfl)
  match lifetimes.insert ⟨id, now, now, none, none⟩ with
  | none => .error (.sqlite "UNIQUE constraint failed: scheduler_lifetimes.id")
  | some lifetimes => .ok (stale, { s with lifetimes := lifetimes })

/-- Ends a daemon lifetime that is still open. -/
def endLifetime (s : Store) (id : Uuid) (now : Int) : Store :=
  let lifetimes := s.lifetimes.update (fun l => l.id = id && l.endedAt.isNone)
    (fun l => { l with endedAt := some now, heartbeatAt := now, exitClass := some "clean" })
    (fun _ => rfl)
  { s with lifetimes := lifetimes }

/-! ## Eligibility -/

/-- The run may be admitted: pending and due, without a cancellation request, its job not in
quarantine, its replaced predecessors gone, and, for a catch-up run, no earlier unfinished run. -/
def eligible (s : Store) (now : Int) (r : RunRow) : Bool :=
  r.state.isPending && r.eligibleAt ≤ now && r.cancellationRequestedAt.isNone
  && !s.jobQuarantined r.jobId
  && (!r.replacementCandidate || !s.runs.exist (fun prior => prior.jobId = r.jobId
      && prior.id != r.id && (prior.state.isLive || prior.state = .retryWait)))
  && (r.trigger != .catchUp || !s.runs.exist (fun earlier => earlier.jobId = r.jobId
      && earlier.queueSequence < r.queueSequence
      && (earlier.state.isPending || earlier.state.isLive)))

def admissionLe (a b : RunRow) : Prop :=
  a.eligibleAt < b.eligibleAt ∨ (a.eligibleAt = b.eligibleAt ∧ a.queueSequence ≤ b.queueSequence)

instance : DecidableRel admissionLe := fun _ _ => inferInstanceAs (Decidable (_ ∨ _))

def eligibleRuns (s : Store) (now : Int) (limit : Nat) : List RunRow :=
  ((s.runs.rows.filter (s.eligible now)).insertionSort admissionLe).take limit

def activeAttempts (s : Store) : Nat := s.attempts.count (fun a => a.state.isActive)

/-- What the configured limit and the hard guard leave. -/
def capacity (s : Store) (hardGuardAvailable : Nat) : Nat :=
  min hardGuardAvailable (s.settings.globalConcurrency - s.activeAttempts).toNat

def nextAttemptNumber (s : Store) (run : Uuid) : Nat :=
  ((s.attempts.rows.filter (fun a => a.runId = run)).map (fun a => a.number)).foldl max 0 + 1

/-! ## Selection -/

/-- The selection under way: the rows not looked at, and the selected ones. -/
structure Selection where
  waiting : List RunRow
  selected : List RunRow

def liveCount (s : Store) (job : Uuid) : Nat :=
  s.runs.count (fun r => r.jobId = job && r.state.isLive)

/-- How many attempts of a job may be active at once. -/
def perJobLimit (policy : SnapshotAdmissionPolicy) : Int :=
  if policy.overlap = .allow then max policy.perJobConcurrency 1 else 1

/-- Takes the first waiting row of a job. It is selected if its snapshot was prepared and the job's
limit leaves room; otherwise it is dropped for this pass. -/
def selectFirst (s : Store) (prepared : Uuid → Option Snapshot) (job : Uuid) (sel : Selection)
    (row : RunRow) : Except StoreError Selection :=
  let sel := { sel with waiting := sel.waiting.eraseP (fun r => r.jobId = job) }
  if prepared row.id ≠ some row.snapshot then .ok sel
  else
    match snapshotAdmissionPolicy row.snapshot with
    | .error e => .error e
    | .ok policy =>
      let occupied := s.liveCount job + sel.selected.countP (fun r => r.jobId = job)
      if occupied < perJobLimit policy then .ok { sel with selected := sel.selected ++ [row] }
      else .ok sel

/-- One round over the jobs; stops as soon as the capacity is used up. -/
def selectRound (s : Store) (prepared : Uuid → Option Snapshot) (capacity : Nat) :
    List Uuid → Selection → Except StoreError Selection
  | [], sel => .ok sel
  | job :: jobs, sel =>
    match sel.waiting.find? (fun r => r.jobId = job) with
    | none => s.selectRound prepared capacity jobs sel
    | some row =>
      match s.selectFirst prepared job sel row with
      | .error e => .error e
      | .ok sel =>
        if sel.selected.length = capacity then .ok sel
        else s.selectRound prepared capacity jobs sel

/-- Rounds until the capacity is used up or a round finds no row. Each round takes at least one
waiting row, so the fuel of one more than these rows is never used up. -/
def selectRounds (s : Store) (prepared : Uuid → Option Snapshot) (capacity : Nat)
    (jobs : List Uuid) : Nat → Selection → Except StoreError Selection
  | 0, sel => .ok sel
  | fuel + 1, sel =>
    if capacity ≤ sel.selected.length then .ok sel
    else
      match s.selectRound prepared capacity jobs sel with
      | .error e => .error e
      | .ok sel' =>
        if sel'.waiting.length = sel.waiting.length then .ok sel'
        else s.selectRounds prepared capacity jobs fuel sel'

/-- The jobs with eligible rows, in order, rotated to start after the job admitted last. -/
def jobOrder (s : Store) (rows : List RunRow) : List Uuid :=
  let jobs := (OrdSet.ofList (rows.map (fun r => r.jobId))).toList
  match s.lastAdmittedJob with
  | none => jobs
  | some last => jobs.filter (fun job => last < job) ++ jobs.filter (fun job => job ≤ last)

def startAttempt (s : Store) (lifetime : Uuid) (now : Int) (run job : Uuid) (number : Nat) :
    Except StoreError Store :=
  let s := s.updateRuns (fun r => r.id = run && r.state.isPending)
    (fun r => { r with state := .starting }) (fun _ => rfl)
  if (s.lifetimes.find lifetime).isNone then .error (.sqlite "FOREIGN KEY constraint failed")
  else
    match s.attempts.insert (.start run number lifetime now),
        s.outputs.insert (.pending run number) with
    | some attempts, some outputs =>
      .ok { s with attempts := attempts, outputs := outputs, lastAdmittedJob := some job }
    | _, _ => .error (.sqlite "UNIQUE constraint failed: attempts.run_id")

/-- Starts the attempts of all selected runs; the attempt numbers are those read with the rows. -/
def startAttempts (s : Store) (lifetime : Uuid) (now : Int) :
    List (RunRow × Nat) → Except StoreError Store
  | [] => .ok s
  | (row, number) :: rest =>
    match s.startAttempt lifetime now row.id row.jobId number with
    | .error e => .error e
    | .ok s => s.startAttempts lifetime now rest

/-- Admits eligible runs within the capacity. `prepared` are the snapshots that an earlier read of
the eligible runs returned. The result lists the admitted runs with their attempt numbers. -/
def admitRuns (s : Store) (prepared : Uuid → Option Snapshot) (lifetime : Uuid) (now : Int)
    (hardGuardAvailable : Nat) : Except StoreError (List (RunRow × Nat) × Store) :=
  if hardGuardAvailable = 0 then .ok ([], s)
  else if ¬ (1 ≤ s.settings.globalConcurrency ∧ s.settings.globalConcurrency ≤ 64) then
    .error (.conflict "global_concurrency must be from 1 through 64")
  else if s.capacity hardGuardAvailable = 0 then .ok ([], s)
  else
    let capacity := s.capacity hardGuardAvailable
    let rows := s.eligibleRuns now (capacity * 64)
    match s.selectRounds prepared capacity (s.jobOrder rows) (rows.length + 1) ⟨rows, []⟩ with
    | .error e => .error e
    | .ok sel =>
      let admitted := sel.selected.map (fun r => (r, s.nextAttemptNumber r.id))
      match s.startAttempts lifetime now admitted with
      | .error e => .error e
      | .ok s => .ok (admitted, s)

/-- The snapshots that a preparation in state `s` reads. -/
def prepare (s : Store) (now : Int) (hardGuardAvailable : Nat) (run : Uuid) : Option Snapshot :=
  ((s.eligibleRuns now (s.capacity hardGuardAvailable * 64)).find? (fun r => r.id = run)).map
    (fun r => r.snapshot)

def earliestPendingEligibleAt (s : Store) : Option Int :=
  ((s.runs.rows.filter (fun r => r.state.isPending)).map (fun r => r.eligibleAt)).min?

end Store

end Locron
