import Locron.Store.State

set_option autoImplicit false

/-! # Materializing occurrences

Scheduled and catch-up occurrences become runs together with the advance of the schedule cursor;
manual requests become runs one at a time. Both apply the overlap policy of the snapshot against the
unfinished runs of the job.
-/

namespace Locron

/-- An occurrence to materialize. -/
structure NewScheduledRun where
  id : Uuid
  jobId : Uuid
  revision : Nat
  trigger : Trigger
  nominal : Int
  requestedAt : Int
  eligibleAt : Int
  snapshot : Snapshot

/-- The advance of a schedule cursor from an expected position. -/
structure CursorUpdate where
  expectedRevision : Nat
  expectedCursor : Int
  newCursor : Int
  resolveOneTime : Bool

/-- A range of occurrences that was not materialized. -/
structure ReconciliationSummary where
  kind : String
  count : Nat
  firstNominal : Int
  lastNominal : Int

/-- How many occurrences were inserted, and how many dropped as duplicates. -/
structure MaterializedRun where
  inserted : Nat
  duplicates : Nat
deriving DecidableEq, Repr

/-- The state a new run starts in, and whether it replaces the unfinished runs of the job. -/
structure OverlapDecision where
  state : RunState
  reason : Option String
  candidate : Bool
deriving DecidableEq, Repr

namespace OverlapDecision

def queue : OverlapDecision := ⟨.queued, none, false⟩

end OverlapDecision

/-- What the overlap policy makes of a new run. Catch-up occurrences ignore unfinished work
(`meetsOverlap` is false for them), but not a quarantine. -/
def overlapDecision (quarantined meetsOverlap : Bool) (activeCount : Nat)
    (policy : SnapshotAdmissionPolicy) : OverlapDecision :=
  if quarantined then
    if policy.overlap = .replace then
      ⟨.failed, some "replacement failed: predecessor termination unconfirmed", false⟩
    else ⟨.skippedOverlap, some "predecessor termination unconfirmed", false⟩
  else if meetsOverlap && 0 < activeCount then
    match policy.overlap with
    | .skip => ⟨.skippedOverlap, some "active same-job work exists", false⟩
    | .allow =>
      if policy.perJobConcurrency ≤ activeCount then
        ⟨.skippedConcurrency, some "per-job concurrency limit reached", false⟩
      else .queue
    | .replace => ⟨.queued, none, true⟩
    | .other _ => .queue
  else .queue

/-- Terminal decisions finish the run at once. -/
def OverlapDecision.finishedAt (d : OverlapDecision) (now : Int) : Option Int :=
  match d.state with
  | .skippedOverlap | .skippedConcurrency | .failed => some now
  | _ => none

namespace RunRow

/-- The run gave way to a newer one. -/
def supersede (now : Int) (r : RunRow) : RunRow :=
  { r with
    state := .skippedOverlap
    reason := some "superseded by newer replacement"
    finishedAt := some now
    replacementCandidate := false }

/-- The run is asked to stop for its replacement; an earlier request stands. -/
def requestReplacement (now : Int) (r : RunRow) : RunRow :=
  { r with
    cancellationRequestedAt := r.cancellationRequestedAt <|> some now
    cancellationReason := r.cancellationReason <|> some "replacement"
    replacementCandidate := false }

theorem id_supersede {now : Int} (r : RunRow) : (r.supersede now).id = r.id := rfl

theorem id_requestReplacement {now : Int} (r : RunRow) :
    (r.requestReplacement now).id = r.id := rfl

/-- Pending work that a replacement supersedes; queued catch-up members stay. -/
def superseded (r : RunRow) : Bool :=
  r.state = .retryWait || (r.state = .queued && r.trigger != .catchUp)

end RunRow

namespace Store

def supersedeRun (s : Store) (now : Int) (job successor : Uuid) (run : Uuid) : Store :=
  ((s.deleteRetryIntents (fun i => i.runId = run)).updateRuns
      (fun r => r.id = run && r.state.isPending) (RunRow.supersede now)
        RunRow.id_supersede).event now
    "replacement_superseded" (some job) (some run)
    s!"\x7b\"reason\":\"superseded_by_newer_replacement\",\"successor_run_id\":\"{successor}\"\x7d"

/-- The pending runs of the job that a replacement supersedes, in queue order. -/
def supersededRuns (s : Store) (job : Uuid) : List Uuid :=
  ((s.runs.rows.filter (fun r => r.jobId = job && r.superseded)).insertionSort
    (fun a b => a.queueSequence ≤ b.queueSequence)).map (fun r => r.id)

/-- Makes way for a replacement: pending runs are superseded, live ones are asked to stop. -/
def supersedeForReplacement (s : Store) (job : Uuid) (now : Int) (successor : Uuid) : Store :=
  let s := (s.supersededRuns job).foldl (fun s run => s.supersedeRun now job successor run) s
  let live := fun r : RunRow => r.jobId = job && r.state.isLive
  let changed := s.runs.count live
  let s := s.updateRuns live (RunRow.requestReplacement now) RunRow.id_requestReplacement
  if 0 < changed then
    s.event now "replacement_requested" (some job) none
      s!"\x7b\"source\":\"replacement\",\"successor_run_id\":\"{successor}\"\x7d"
  else s

def newRunRow (run : NewScheduledRun) (sequence : Nat) (d : OverlapDecision) (now : Int) :
    RunRow where
  id := run.id
  jobId := run.jobId
  revision := run.revision
  trigger := run.trigger
  nominal := some run.nominal
  requestedAt := run.requestedAt
  eligibleAt := run.eligibleAt
  queueSequence := sequence
  snapshot := run.snapshot
  state := d.state
  reason := d.reason
  replacementCandidate := d.candidate
  cancellationRequestedAt := none
  cancellationReason := none
  finishedAt := d.finishedAt now

/-- Materializes one occurrence; the result tells whether its row was inserted. -/
def materializeRun (s : Store) (now : Int) (run : NewScheduledRun)
    (policy : SnapshotAdmissionPolicy) : Except StoreError (Bool × Store) :=
  let (sequence, s) := s.takeQueueSequence
  let d := overlapDecision (s.jobQuarantined run.jobId) (run.trigger != .catchUp)
    (s.activeCount run.jobId) policy
  let s := if d.candidate then s.supersedeForReplacement run.jobId now run.id else s
  s.insertRunOrIgnore (newRunRow run sequence d now)

def materializeRuns (s : Store) (now : Int) :
    List (NewScheduledRun × SnapshotAdmissionPolicy) → MaterializedRun →
      Except StoreError (MaterializedRun × Store)
  | [], result => .ok (result, s)
  | (run, policy) :: rest, result =>
    match s.materializeRun now run policy with
    | .error e => .error e
    | .ok (true, s) => s.materializeRuns now rest { result with inserted := result.inserted + 1 }
    | .ok (false, s) =>
      s.materializeRuns now rest { result with duplicates := result.duplicates + 1 }

/-- The policies of the occurrences, which must belong to the reconciled revision. -/
def preparePolicies (job : Uuid) (revision : Nat) : List NewScheduledRun →
    Except StoreError (List (NewScheduledRun × SnapshotAdmissionPolicy))
  | [] => .ok []
  | run :: rest =>
    if run.jobId ≠ job ∨ run.revision ≠ revision then
      .error (.conflict "scheduled run does not match reconciled job revision")
    else
      match snapshotAdmissionPolicy run.snapshot, preparePolicies job revision rest with
      | .error e, _ => .error e
      | _, .error e => .error e
      | .ok policy, .ok rest => .ok ((run, policy) :: rest)

/-- Moves the cursor of the live job's current revision, if it stands where expected. -/
def advanceCursor (s : Store) (job : Uuid) (cursor : CursorUpdate) (now : Int) :
    Except StoreError Store :=
  let moved := fun c : CursorRow => c.jobId = job && c.revision = cursor.expectedRevision
    && (s.liveJob job).map (fun j => j.currentRevision) = some c.revision
    && c.cursor = cursor.expectedCursor
  if s.cursors.count moved ≠ 1 then .error (.conflict "schedule cursor changed")
  else
    let s := s.updateCursors moved (fun c => { c with
      cursor := cursor.newCursor
      oneTimeResolved := c.oneTimeResolved || cursor.resolveOneTime
      updatedAt := now
      disabledSince := none }) (fun _ => rfl)
    if cursor.resolveOneTime then
      .ok ((s.updateJobs (fun j => j.id = job)
          (fun j => { j with enabled := false, updatedAt := now }) (fun _ => rfl)).event now
        "one_time_resolved" (some job) none "\x7b\x7d")
    else .ok s

def summaryDetails (x : ReconciliationSummary) : String :=
  s!"\x7b\"count\":{x.count},\"first_nominal_us\":{x.firstNominal},"
    ++ s!"\"last_nominal_us\":{x.lastNominal}\x7d"

/-- Records the omitted ranges. -/
def recordSummaries (s : Store) (job : Uuid) (summaries : List ReconciliationSummary) (now : Int) :
    Store :=
  summaries.foldl (fun s x => s.event now x.kind (some job) none (summaryDetails x)) s

/-- Advances the cursor of a job and inserts the runs of the elapsed range, in one transaction. -/
def materializeWithSummaries (s : Store) (job : Uuid) (cursor : CursorUpdate)
    (runs : List NewScheduledRun) (summaries : List ReconciliationSummary) (now : Int) :
    Except StoreError (MaterializedRun × Store) :=
  match preparePolicies job cursor.expectedRevision runs with
  | .error e => .error e
  | .ok prepared =>
    if summaries.any (fun x => x.count = 0 || x.lastNominal < x.firstNominal) then
      .error (.conflict "invalid reconciliation summary range")
    else
      match s.advanceCursor job cursor now with
      | .error e => .error e
      | .ok s =>
        match s.materializeRuns now prepared ⟨0, 0⟩ with
        | .error e => .error e
        | .ok (result, s) => .ok (result, s.recordSummaries job summaries now)

def manualRunRow (run job : Uuid) (revision : Nat) (snapshot : Snapshot) (sequence : Nat)
    (d : OverlapDecision) (now : Int) : RunRow where
  id := run
  jobId := job
  revision := revision
  trigger := .manual
  nominal := none
  requestedAt := now
  eligibleAt := now
  queueSequence := sequence
  snapshot := snapshot
  state := d.state
  reason := d.reason
  replacementCandidate := d.candidate
  cancellationRequestedAt := none
  cancellationReason := none
  finishedAt := d.finishedAt now

/-- Queues a manual run. `revision` and `snapshot` are what an earlier read of the job returned; the
transaction checks that they still are current. -/
def enqueueManual (s : Store) (job : Uuid) (revision : Nat) (snapshot : Snapshot) (run : Uuid)
    (now : Int) : Except StoreError Store :=
  match snapshotAdmissionPolicy snapshot with
  | .error e => .error e
  | .ok policy =>
    match s.liveJob job with
    | none => .error (.notFound (toString job))
    | some j =>
      match s.revisions.find (job, j.currentRevision) with
      | none => .error (.notFound (toString job))
      | some current =>
        if j.currentRevision ≠ revision ∨ current.definition ≠ snapshot then
          .error (.conflict "job revision changed before manual enqueue")
        else
          let (sequence, s) := s.takeQueueSequence
          let d := overlapDecision (s.jobQuarantined job) true (s.activeCount job) policy
          let s := if d.candidate then s.supersedeForReplacement job now run else s
          (s.insertRun (manualRunRow run job revision snapshot sequence d now)).map
            (fun s => s.event now "manual_enqueued" (some job) (some run) "\x7b\x7d")

end Store

end Locron
