import Locron.Core.Lifecycle
import Locron.Lib.Table
import Locron.Schedule.Reconcile

set_option autoImplicit false

/-! # The durable state

The tables of the database with the columns that the modelled operations read or write, and the
statements that several operations share. An operation is one immediate transaction: it returns an
error and leaves the state alone, or a result and the state after the commit.
-/

namespace Locron

/-- An identity. Canonical lowercase UUID text is all the store accepts for one; such texts
correspond to the numbers below `2 ^ 128`, in the same order. -/
abbrev Uuid := Nat

inductive StoreError where
  | notFound (what : String)
  | conflict (message : String)
  | sqlite (message : String)
  | json (message : String)
deriving DecidableEq, Repr

/-! ## Stored definitions -/

/-- What happens to the job once its one-time run is terminal. -/
inductive CompletionAction where
  | retain
  | delete
deriving DecidableEq, Repr

/-- A job definition; `rest` stands for target, working directory and environment. -/
structure JobDefinition where
  schedule : Schedule
  policy : ExecutionPolicy
  completionAction : CompletionAction
  rest : String
deriving DecidableEq, Repr

/-- The overlap text of a snapshot: one of the three policies, or any other text. -/
inductive SnapshotOverlap where
  | skip
  | replace
  | allow
  | other (text : String)
deriving DecidableEq, Repr

structure SnapshotAdmissionPolicy where
  overlap : SnapshotOverlap
  perJobConcurrency : Int
deriving DecidableEq, Repr

/-- A stored definition text: not JSON at all, JSON that is no job definition, or a definition. -/
inductive Snapshot where
  | invalid (text : String)
  | json (text : String) (policy : SnapshotAdmissionPolicy)
  | job (definition : JobDefinition)
deriving DecidableEq, Repr

def SnapshotOverlap.ofPolicy : OverlapPolicy → SnapshotOverlap
  | .skip => .skip
  | .replace => .replace
  | .allow => .allow

/-- The overlap policy and the concurrency limit; a missing overlap reads as `skip` and a missing
limit as one. -/
def snapshotAdmissionPolicy : Snapshot → Except StoreError SnapshotAdmissionPolicy
  | .invalid text => .error (.json text)
  | .json _ policy => .ok policy
  | .job d => .ok ⟨.ofPolicy d.policy.overlap, d.policy.perJobConcurrency⟩

/-- The definition, if the text is one. -/
def Snapshot.definition : Snapshot → Option JobDefinition
  | .job d => some d
  | _ => none

/-! ## Rows -/

structure JobRow where
  id : Uuid
  name : String
  description : Option String
  tags : String
  enabled : Bool
  createdAt : Int
  updatedAt : Int
  removedAt : Option Int
  currentRevision : Nat

inductive RevisionOrigin where
  | add
  | update
  | import
deriving DecidableEq, Repr

structure RevisionRow where
  jobId : Uuid
  revision : Nat
  definition : Snapshot
  createdAt : Int
  createdBy : RevisionOrigin

structure CursorRow where
  jobId : Uuid
  revision : Nat
  cursor : Int
  oneTimeResolved : Bool
  updatedAt : Int
  disabledSince : Option Int

structure LifetimeRow where
  id : Uuid
  startedAt : Int
  heartbeatAt : Int
  endedAt : Option Int
  exitClass : Option String

inductive Trigger where
  | scheduled
  | catchUp
  | manual
deriving DecidableEq, Repr

structure RunRow where
  id : Uuid
  jobId : Uuid
  revision : Nat
  trigger : Trigger
  nominal : Option Int
  requestedAt : Int
  eligibleAt : Int
  queueSequence : Nat
  snapshot : Snapshot
  state : RunState
  reason : Option String
  replacementCandidate : Bool
  cancellationRequestedAt : Option Int
  cancellationReason : Option String
  finishedAt : Option Int

structure AttemptRow where
  runId : Uuid
  number : Nat
  lifetimeId : Uuid
  state : AttemptState
  startedAt : Int
  runningAt : Option Int
  finishedAt : Option Int
  duration : Option Int
  resolvedExecutable : Option String
  exitCode : Option Int
  httpStatus : Option Nat
  httpContentType : Option String
  resultClass : Option String
  errorMessage : Option String

structure RetryIntentRow where
  runId : Uuid
  priorAttemptNumber : Nat
  notBefore : Int
  classification : String
  createdAt : Int

structure EventRow where
  occurredAt : Int
  kind : String
  jobId : Option Uuid
  runId : Option Uuid
  details : String

inductive OutputState where
  | pending
  | active
  | finalized
  | prunePending
  | pruned
  | missing
deriving DecidableEq, Repr

structure OutputRow where
  runId : Uuid
  attemptNumber : Nat
  relativePath : String
  state : OutputState
  retainedPayloadBytes : Int
  physicalBytes : Int
  discardedBytes : Int
  truncated : Bool
  truncatedAt : Option Int
  finalizedAt : Option Int
  pruneStartedAt : Option Int
  prunedAt : Option Int

/-- The settings that admission and retention read. -/
structure Settings where
  globalConcurrency : Int
  runRetentionCount : Int
  runRetentionAge : Option Int

def RevisionRow.key (r : RevisionRow) : Uuid × Nat := (r.jobId, r.revision)

def CursorRow.key (c : CursorRow) : Uuid × Nat := (c.jobId, c.revision)

def AttemptRow.key (a : AttemptRow) : Uuid × Nat := (a.runId, a.number)

def OutputRow.key (o : OutputRow) : Uuid × Nat := (o.runId, o.attemptNumber)

/-- The database. -/
structure Store where
  settings : Settings
  jobs : Table JobRow.id
  revisions : Table RevisionRow.key
  cursors : Table CursorRow.key
  lifetimes : Table LifetimeRow.id
  lastAdmittedJob : Option Uuid
  nextQueueSequence : Nat
  runs : Table RunRow.id
  attempts : Table AttemptRow.key
  retryIntents : Table RetryIntentRow.runId
  events : List EventRow
  outputs : Table OutputRow.key
  /-- Runs reserved for the deletion of their metadata. -/
  retentionPending : List Uuid

namespace Store

/-- The database after the migrations. -/
def initial : Store where
  settings := ⟨16, 10000, some 7776000000000⟩
  jobs := .empty
  revisions := .empty
  cursors := .empty
  lifetimes := .empty
  lastAdmittedJob := none
  nextQueueSequence := 1
  runs := .empty
  attempts := .empty
  retryIntents := .empty
  events := []
  outputs := .empty
  retentionPending := []

end Store

/-! ## Row conditions -/

/-- The reason that marks a quarantined run. -/
def terminationUnconfirmed : String := "termination_unconfirmed"

namespace RunState

def isPending : RunState → Bool
  | .queued | .retryWait => true
  | _ => false

def text : RunState → String
  | .queued => "queued"
  | .starting => "starting"
  | .running => "running"
  | .retryWait => "retry_wait"
  | .succeeded => "succeeded"
  | .failed => "failed"
  | .timedOut => "timed_out"
  | .cancelled => "cancelled"
  | .skippedOverlap => "skipped_overlap"
  | .skippedConcurrency => "skipped_concurrency"
  | .interruptedUnknown => "interrupted_unknown"

def isLive : RunState → Bool
  | .starting | .running => true
  | _ => false

end RunState

namespace RunRow

/-- Termination of the run's process could not be confirmed. -/
def quarantined (r : RunRow) : Bool :=
  r.state = .running && r.reason = some terminationUnconfirmed

end RunRow

/-! ## Shared statements -/

namespace Store

def liveJob (s : Store) (id : Uuid) : Option JobRow :=
  (s.jobs.find id).filter (fun j => j.removedAt.isNone)

def event (s : Store) (at_ : Int) (kind : String) (job run : Option Uuid) (details : String) :
    Store :=
  { s with events := s.events ++ [⟨at_, kind, job, run, details⟩] }

def updateJobs (s : Store) (p : JobRow → Bool) (f : JobRow → JobRow)
    (hf : ∀ r, (f r).id = r.id) : Store :=
  { s with jobs := s.jobs.update p f hf }

def updateCursors (s : Store) (p : CursorRow → Bool) (f : CursorRow → CursorRow)
    (hf : ∀ r, (f r).key = r.key) : Store :=
  { s with cursors := s.cursors.update p f hf }

def updateRuns (s : Store) (p : RunRow → Bool) (f : RunRow → RunRow)
    (hf : ∀ r, (f r).id = r.id) : Store :=
  { s with runs := s.runs.update p f hf }

def updateAttempts (s : Store) (p : AttemptRow → Bool) (f : AttemptRow → AttemptRow)
    (hf : ∀ r, (f r).key = r.key) : Store :=
  { s with attempts := s.attempts.update p f hf }

def updateOutputs (s : Store) (p : OutputRow → Bool) (f : OutputRow → OutputRow)
    (hf : ∀ r, (f r).key = r.key) : Store :=
  { s with outputs := s.outputs.update p f hf }

def deleteRetryIntents (s : Store) (p : RetryIntentRow → Bool) : Store :=
  { s with retryIntents := s.retryIntents.delete p }

def putRetryIntent (s : Store) (row : RetryIntentRow) : Store :=
  { s with retryIntents := s.retryIntents.replace row }

def takeQueueSequence (s : Store) : Nat × Store :=
  (s.nextQueueSequence, { s with nextQueueSequence := s.nextQueueSequence + 1 })

def activeCount (s : Store) (job : Uuid) : Nat :=
  s.runs.count (fun r => r.jobId = job && (r.state.isPending || r.state.isLive))

def jobQuarantined (s : Store) (job : Uuid) : Bool :=
  s.runs.exist (fun r => r.jobId = job && r.quarantined)

/-- A row that breaks a unique index or a check of the runs table: the identity, the queue
sequence, the scheduled occurrence, the one candidate of the job, or a nominal time that does not
fit the trigger. -/
def runConflict (s : Store) (row : RunRow) : Bool :=
  s.runs.exist (fun r => r.id = row.id)
  || s.runs.exist (fun r => r.queueSequence = row.queueSequence)
  || (row.trigger != .manual && s.runs.exist (fun r => r.trigger != .manual && r.jobId = row.jobId
      && r.revision = row.revision && r.nominal = row.nominal))
  || (row.replacementCandidate && s.runs.exist (fun r => r.replacementCandidate
      && r.jobId = row.jobId))
  || (row.trigger = .manual) != row.nominal.isNone

def runReferences (s : Store) (row : RunRow) : Bool :=
  (s.jobs.find row.jobId).isSome && (s.revisions.find (row.jobId, row.revision)).isSome

def insertRun (s : Store) (row : RunRow) : Except StoreError Store :=
  if s.runConflict row then .error (.sqlite "UNIQUE constraint failed: runs")
  else if s.runReferences row then
    match s.runs.insert row with
    | some runs => .ok { s with runs := runs }
    | none => .error (.sqlite "UNIQUE constraint failed: runs.id")
  else .error (.sqlite "FOREIGN KEY constraint failed")

/-- Inserts a run, or drops it if it breaks a unique index or a check; a broken reference stays an
error. The result tells whether the row was inserted. -/
def insertRunOrIgnore (s : Store) (row : RunRow) : Except StoreError (Bool × Store) :=
  if s.runConflict row then .ok (false, s)
  else (s.insertRun row).map (fun s' => (true, s'))

/-- Soft-removes the job of a finished scheduled run whose snapshot asks for it. -/
def softRemoveAfterOneTimeCompletion (s : Store) (run : Uuid) (now : Int) : Store :=
  match (s.runs.find run).filter (fun r => r.finishedAt.isSome) with
  | none => s
  | some r =>
    match r.snapshot.definition with
    | none => s
    | some d =>
      if r.trigger = .manual || d.completionAction != .delete
          || !(match d.schedule with | .at _ => true | _ => false) then s
      else
        let removing := fun j : JobRow => j.id = r.jobId && j.removedAt.isNone
        let removed := s.jobs.count removing
        let s := s.updateJobs removing
          (fun j => { j with enabled := false, removedAt := some now, updatedAt := now })
          (fun _ => rfl)
        if removed = 1 then
          s.event now "job_auto_removed" (some r.jobId) (some run)
            "\x7b\"completion_action\":\"delete\"\x7d"
        else s

end Store

end Locron
