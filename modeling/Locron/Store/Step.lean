import Locron.Store.Admit
import Locron.Store.Jobs
import Locron.Store.Materialize
import Locron.Store.Outputs

set_option autoImplicit false

/-! # Runs of the store

All write operations as one alphabet, and the states that sequences of them reach from the empty
database. A failed operation leaves the state alone, so only successful ones are steps.
-/

namespace Locron

/-- A write operation with its arguments. -/
inductive Op where
  | createJob (job : CreateJob)
  | updateJob (job : UpdateJob)
  | applyImport (batch : ImportBatch)
  | setEnabled (job : Uuid) (enabled : Bool) (now : Int)
  | removeJob (job : Uuid) (now : Int)
  | setGlobalConcurrency (value : Int)
  | setRunRetentionCount (value : Int)
  | setRunRetentionAge (value : Option Int)
  | enqueueManual (job : Uuid) (revision : Nat) (snapshot : Snapshot) (run : Uuid) (now : Int)
  | materialize (job : Uuid) (cursor : CursorUpdate) (runs : List NewScheduledRun)
      (summaries : List ReconciliationSummary) (now : Int)
  | cancel (run : Uuid) (now : Int) (acknowledge : Bool)
  | beginLifetime (id : Uuid) (now : Int)
  | endLifetime (id : Uuid) (now : Int)
  | admitRuns (prepared : Uuid → Option Snapshot) (lifetime : Uuid) (now : Int)
      (hardGuardAvailable : Nat)
  | markAttemptRunning (run : Uuid) (number : Nat) (now : Int) (executable : Option String)
  | completeAttempt (completion : AttemptCompletion)
  | completePreExecutionFailure (run : Uuid) (number : Nat) (output : Option OutputRecord)
      (now : Int) (reason : String)
  | completeRunnerFailure (run : Uuid) (number : Nat) (now : Int) (reason : String)
      (mayHaveStarted : Bool)
  | reconcileOutputFinalized (output : OutputRecord) (now : Int)
  | reconcileOutputMissing (run : Uuid) (number : Nat) (now : Int)
  | markOutputPrunePending (run : Uuid) (number : Nat) (now : Int)
  | finishOutputPrune (run : Uuid) (number : Nat) (now : Int)
  | markRunRetentionPending (candidate : RunRetentionCandidate) (now : Int)
  | finishRunRetention (candidate : RunRetentionCandidate)

namespace Store

/-- The state after an operation. -/
def apply (s : Store) : Op → Except StoreError Store
  | .createJob job => s.createJob job
  | .updateJob job => s.updateJob job
  | .applyImport batch => s.applyImport batch
  | .setEnabled job enabled now => s.setEnabled job enabled now
  | .removeJob job now => s.removeJob job now
  | .setGlobalConcurrency value => s.setGlobalConcurrency value
  | .setRunRetentionCount value => s.setRunRetentionCount value
  | .setRunRetentionAge value => s.setRunRetentionAge value
  | .enqueueManual job revision snapshot run now => s.enqueueManual job revision snapshot run now
  | .materialize job cursor runs summaries now =>
    (s.materializeWithSummaries job cursor runs summaries now).map Prod.snd
  | .cancel run now acknowledge => (s.cancelWithAcknowledgement run now acknowledge).map Prod.snd
  | .beginLifetime id now => (s.beginLifetime id now).map Prod.snd
  | .endLifetime id now => .ok (s.endLifetime id now)
  | .admitRuns prepared lifetime now guard => (s.admitRuns prepared lifetime now guard).map Prod.snd
  | .markAttemptRunning run number now executable =>
    (s.markAttemptRunning run number now executable).map Prod.snd
  | .completeAttempt completion => s.completeAttempt completion
  | .completePreExecutionFailure run number output now reason =>
    s.completePreExecutionFailure run number output now reason
  | .completeRunnerFailure run number now reason mayHaveStarted =>
    s.completeRunnerFailure run number now reason mayHaveStarted
  | .reconcileOutputFinalized output now => s.reconcileOutputFinalized output now
  | .reconcileOutputMissing run number now => s.reconcileOutputMissing run number now
  | .markOutputPrunePending run number now => s.markOutputPrunePending run number now
  | .finishOutputPrune run number now => s.finishOutputPrune run number now
  | .markRunRetentionPending candidate now => s.markRunRetentionPending candidate now
  | .finishRunRetention candidate => s.finishRunRetention candidate

/-- One committed operation that the condition allows. -/
def Step (allowed : Store → Op → Prop) (s s' : Store) : Prop :=
  ∃ op, allowed s op ∧ s.apply op = .ok s'

/-- The states of the runs from the empty database whose operations all meet the condition. -/
def Reachable (allowed : Store → Op → Prop) (s : Store) : Prop :=
  Relation.ReflTransGen (Step allowed) initial s

/-- No condition on the operations. -/
def anyOp (_ : Store) (_ : Op) : Prop := True

/-- An invariant of the allowed operations holds in every reachable state. -/
theorem Reachable.induction {allowed : Store → Op → Prop} {motive : Store → Prop}
    (hinit : motive initial)
    (hstep : ∀ {s s' : Store} {op : Op}, motive s → allowed s op → s.apply op = .ok s' → motive s')
    {s : Store} (h : Reachable allowed s) : motive s := by
  induction h with
  | refl => exact hinit
  | tail _ hlast ih =>
    obtain ⟨op, hop, happly⟩ := hlast
    exact hstep ih hop happly

/-- A weaker condition allows more runs. -/
theorem Reachable.mono {allowed allowed' : Store → Op → Prop}
    (hle : ∀ s op, allowed s op → allowed' s op) {s : Store} (h : Reachable allowed s) :
    Reachable allowed' s := by
  induction h with
  | refl => exact .refl
  | tail _ hlast ih =>
    obtain ⟨op, hop, happly⟩ := hlast
    exact ih.tail ⟨op, hle _ op hop, happly⟩

/-- A run of fixed operations. -/
def applyAll (s : Store) : List Op → Except StoreError Store
  | [] => .ok s
  | op :: ops =>
    match s.apply op with
    | .error e => .error e
    | .ok s => s.applyAll ops

/-- A run of allowed operations leads from one reachable state to another. -/
theorem Reachable.applyAll {allowed : Store → Op → Prop} {s s' : Store} (hs : Reachable allowed s)
    (ops : List Op) (hall : ∀ s, ∀ op ∈ ops, allowed s op) (h : s.applyAll ops = .ok s') :
    Reachable allowed s' := by
  induction ops generalizing s with
  | nil =>
    cases h
    exact hs
  | cons op ops ih =>
    unfold Store.applyAll at h
    split at h
    · cases h
    next s₁ hop =>
    exact ih (hs.tail ⟨op, hall s op (by simp), hop⟩)
      (fun s o ho => hall s o (by simp [ho])) h

/-- A run of fixed operations that ends in a state with a checked property. -/
def endsIn (ops : List Op) (check : Store → Bool) : Bool :=
  match initial.applyAll ops with
  | .error _ => false
  | .ok s => check s

theorem exists_reachable (allowed : Store → Op → Prop) (ops : List Op) (P : Store → Prop)
    [DecidablePred P] (hall : ∀ s, ∀ op ∈ ops, allowed s op)
    (h : endsIn ops (fun s => P s) = true) : ∃ s, Reachable allowed s ∧ P s := by
  unfold endsIn at h
  split at h
  · cases h
  · next s hs => exact ⟨s, Reachable.applyAll .refl ops hall hs, of_decide_eq_true h⟩

end Store

end Locron
