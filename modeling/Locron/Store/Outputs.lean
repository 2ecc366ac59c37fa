import Locron.Store.Attempts

set_option autoImplicit false

/-! # Output artifacts and retention

Reconciling output artifacts with their files, pruning them, and deleting the metadata of old
terminal runs.
-/

namespace Locron

/-- A terminal run that retention may delete. -/
structure RunRetentionCandidate where
  runId : Uuid
  jobId : Uuid
  finishedAt : Int

/-- An artifact that retention may prune. -/
structure RetentionCandidate where
  runId : Uuid
  attemptNumber : Nat
  relativePath : String
  physicalBytes : Int
  finalizedAt : Int
deriving DecidableEq, Repr

def RetentionCandidate.le (a b : RetentionCandidate) : Prop :=
  a.finalizedAt < b.finalizedAt ∨ (a.finalizedAt = b.finalizedAt ∧
    (a.runId < b.runId ∨ (a.runId = b.runId ∧ a.attemptNumber ≤ b.attemptNumber)))

instance : DecidableRel RetentionCandidate.le := fun _ _ => inferInstanceAs (Decidable (_ ∨ _))

namespace OutputRow

/-- By the time at which pruning began, then by run and attempt. -/
def markedLe (a b : OutputRow) : Prop :=
  a.pruneStartedAt.getD 0 < b.pruneStartedAt.getD 0 ∨
    (a.pruneStartedAt.getD 0 = b.pruneStartedAt.getD 0 ∧
      (a.runId < b.runId ∨ (a.runId = b.runId ∧ a.attemptNumber ≤ b.attemptNumber)))

instance : DecidableRel markedLe := fun _ _ => inferInstanceAs (Decidable (_ ∨ _))

/-- The artifact records what the runner reports. -/
def records (output : OutputRecord) (o : OutputRow) : Bool :=
  o.state = .finalized && o.relativePath = s!"{output.runId}/{output.attemptNumber}.log"
  && o.retainedPayloadBytes = output.retainedPayloadBytes
  && o.physicalBytes = output.physicalBytes && o.discardedBytes = output.discardedBytes
  && o.truncated = output.truncated

end OutputRow

namespace Store

/-- Finalizes the artifact of an attempt; the same report again changes nothing. -/
def reconcileOutputFinalized (s : Store) (output : OutputRecord) (now : Int) :
    Except StoreError Store :=
  let open_ := OutputRow.isOf output.runId output.attemptNumber [.pending, .active]
  if s.outputs.count open_ = 1 then
    if output.negative then .error (.sqlite "CHECK constraint failed: output_artifacts")
    else .ok (s.updateOutputs open_ (OutputRow.finalize output now) OutputRow.key_finalize)
  else if (s.outputs.find (output.runId, output.attemptNumber)).any (OutputRow.records output) then
    .ok s
  else .error (.conflict "output artifact is not recoverable for finalization")

def reconcileOutputMissing (s : Store) (run : Uuid) (number : Nat) (now : Int) :
    Except StoreError Store :=
  let open_ := OutputRow.isOf run number [.pending, .active]
  if s.outputs.count open_ = 1 then
    .ok (s.updateOutputs open_ (OutputRow.lose now) OutputRow.key_lose)
  else if s.outputs.exist (OutputRow.isOf run number [.missing]) then .ok s
  else .error (.conflict "output artifact is not recoverable as missing")

def markOutputPrunePending (s : Store) (run : Uuid) (number : Nat) (now : Int) :
    Except StoreError Store :=
  let finalized := OutputRow.isOf run number [.finalized]
  if s.outputs.count finalized = 1 then
    .ok (s.updateOutputs finalized
      (fun o => { o with state := .prunePending, pruneStartedAt := some now }) (fun _ => rfl))
  else .error (.conflict "output is no longer eligible for pruning")

/-- Records an artifact as pruned. -/
def finishOutputPrune (s : Store) (run : Uuid) (number : Nat) (now : Int) :
    Except StoreError Store :=
  let pending := OutputRow.isOf run number [.prunePending]
  if s.outputs.count pending = 1 then
    .ok (s.updateOutputs pending (fun o => { o with
      state := .pruned
      retainedPayloadBytes := 0
      physicalBytes := 0
      prunedAt := some now }) (fun _ => rfl))
  else if s.outputs.exist (fun o => OutputRow.isOf run number [.pruned] o && o.physicalBytes = 0)
    then .ok s
  else .error (.conflict "output is not pending durable prune completion")

/-! ## Candidates for pruning -/

/-- A batch of maintenance reads at most 100 rows. -/
def maintenanceLimit (limit : Nat) : Nat := min limit 100

/-- The artifact as retention sees it; `time` orders the batch. -/
def retentionCandidate (time : Option Int) (o : OutputRow) : RetentionCandidate :=
  ⟨o.runId, o.attemptNumber, o.relativePath, o.physicalBytes, time.getD 0⟩

/-- The finalized artifacts of terminal runs, those finalized first. -/
def outputRetentionCandidates (s : Store) (limit : Nat) : List RetentionCandidate :=
  (((s.outputs.rows.filter (fun o => o.state = .finalized
      && (s.runs.find o.runId).any (fun r => r.state.isTerminal))).map
    (fun o => retentionCandidate o.finalizedAt o)).insertionSort RetentionCandidate.le).take
    (maintenanceLimit limit)

/-- The artifacts whose pruning has begun, those marked first. -/
def pendingOutputPrunes (s : Store) (limit : Nat) : List RetentionCandidate :=
  (((s.outputs.rows.filter (fun o => o.state = .prunePending)).insertionSort
      OutputRow.markedLe).map
    (fun o => retentionCandidate (o.finalizedAt <|> o.pruneStartedAt) o)).take
    (maintenanceLimit limit)

/-! ## Run retention -/

/-- A terminal run that finished later than the candidate. -/
def newerThan (candidate : RunRow) (finished : Int) (r : RunRow) : Bool :=
  r.state.isTerminal && match r.finishedAt with
    | none => false
    | some t => finished < t || (t = finished && candidate.id < r.id)

/-- The count of a subquery with `LIMIT`; a negative limit is none. -/
def limitedCount (limit : Int) (n : Nat) : Nat := if limit < 0 then n else min n limit.toNat

/-- The run is too old, or beyond the count kept per job or over all jobs. -/
def retentionEligible (s : Store) (candidate : RunRetentionCandidate) (now : Int) : Bool :=
  match s.runs.find candidate.runId with
  | none => false
  | some r =>
    r.jobId = candidate.jobId && r.finishedAt = some candidate.finishedAt && r.state.isTerminal
    && (s.settings.runRetentionAge.any (fun age => candidate.finishedAt < saturate (now - age))
      || 1000 ≤ limitedCount 1000
        (s.runs.count (fun x => x.jobId = r.jobId && newerThan r candidate.finishedAt x))
      || s.settings.runRetentionCount ≤ limitedCount s.settings.runRetentionCount
        (s.runs.count (newerThan r candidate.finishedAt)))

/-- Reserves a run for the deletion of its metadata. -/
def markRunRetentionPending (s : Store) (candidate : RunRetentionCandidate) (now : Int) :
    Except StoreError Store :=
  if s.retentionEligible candidate now then
    if s.retentionPending.contains candidate.runId then .ok s
    else .ok { s with retentionPending := s.retentionPending ++ [candidate.runId] }
  else .error (.conflict "run is no longer eligible for metadata retention")

/-- The run can be deleted: terminal, as it was selected, and without output left. -/
def retentionSafe (s : Store) (candidate : RunRetentionCandidate) : Bool :=
  (s.runs.find candidate.runId).any (fun r => r.jobId = candidate.jobId
    && r.finishedAt = some candidate.finishedAt && r.state.isTerminal)
  && !s.outputs.exist (fun o => o.runId = candidate.runId
    && o.state != .pruned && o.state != .missing)

/-- Deletes a run with everything that belongs to it; events lose their reference to it. -/
def deleteRun (s : Store) (run : Uuid) : Store :=
  { s with
    retryIntents := s.retryIntents.delete (fun i => i.runId = run)
    outputs := s.outputs.delete (fun o => o.runId = run)
    attempts := s.attempts.delete (fun a => a.runId = run)
    retentionPending := s.retentionPending.filter (fun id => id != run)
    runs := s.runs.delete (fun r => r.id = run)
    events := s.events.map (fun e => if e.runId = some run then { e with runId := none } else e) }

def finishRunRetention (s : Store) (candidate : RunRetentionCandidate) : Except StoreError Store :=
  if !s.retentionPending.contains candidate.runId then
    if (s.runs.find candidate.runId).isSome then
      .error (.conflict "run metadata is not pending retention deletion")
    else .ok s
  else if s.retentionSafe candidate then .ok (s.deleteRun candidate.runId)
  else .error (.conflict "run output must be pruned or missing before metadata deletion")

end Store

end Locron
