import Locron.Store.Consistency

set_option autoImplicit false

/-! # Completion through the daemon

The daemon's adapter turns the outcome of a target into a completion. Whether the attempt is retried
is decided from the outcome and the policy of the snapshot alone; the store then commits the retry
without a look at the run. A cancellation request that commits in between is not seen by either, and
the run waits for a retry that admission never selects.
-/

namespace Locron

/-! ## The retry decision -/

/-- The result of an attempt as the retry policy knows it. -/
inductive RetryClass where
  | succeeded
  | knownFailure
  | timeout
  | cancelled
  | configuration
  | replacement
  | interruptedUnknown
deriving DecidableEq, Repr

/-- The delay before an attempt is retried. The factor is a 32-bit one; a product that overflows is
above every cap. -/
def retryDelay (base cap attempt : Nat) (exponential : Bool) : Nat :=
  if !exponential || attempt ≤ 1 then min base cap
  else
    let shift := min (attempt - 1) 63
    min (base * (if shift < 32 then 2 ^ shift else 2 ^ 32 - 1)) cap

/-- Whether and when an attempt is retried. -/
def decideRetry (policy : ExecutionPolicy) (attempt : Nat) (completedAt : Int) (cls : RetryClass) :
    Option RetryPlan :=
  if attempt = 0 ∨ policy.retries < attempt then none
  else
    let classification := match cls with
      | .knownFailure => some "known_failure"
      | .timeout => if policy.retryTimeout then some "timeout" else none
      | _ => none
    classification.map (fun text =>
      let delay := retryDelay policy.retryDelay policy.retryCap attempt
        (policy.backoff = .exponential)
      ⟨saturate (completedAt + (i64OfNat delay).getD i64Max), text⟩)

/-! ## Outcomes -/

inductive OutcomeKind where
  | succeeded
  | failedRetryable
  | failed
  | timedOut
  | cancelled
  | terminationUnconfirmed
deriving DecidableEq, Repr

/-- The result of one target attempt; the output counters are those of the finished file. -/
structure ExecutionOutcome where
  kind : OutcomeKind
  exitCode : Option Int
  httpStatus : Option Nat
  httpContentType : Option String
  reason : String
  duration : Nat

namespace OutcomeKind

def retryClass : OutcomeKind → RetryClass
  | .succeeded => .succeeded
  | .failedRetryable => .knownFailure
  | .timedOut => .timeout
  | .cancelled => .cancelled
  | .terminationUnconfirmed => .interruptedUnknown
  | .failed => .configuration

def completionState : OutcomeKind → CompletionState
  | .succeeded => .succeeded
  | .timedOut => .timedOut
  | .cancelled => .cancelled
  | .terminationUnconfirmed => .terminationUnconfirmed
  | .failed | .failedRetryable => .failed

end OutcomeKind

/-- The completion that the adapter commits for an outcome. -/
def JobDefinition.completion (d : JobDefinition) (run : Uuid) (attempt : Nat)
    (outcome : ExecutionOutcome) (completedAt : Int) : AttemptCompletion where
  runId := run
  attemptNumber := attempt
  now := completedAt
  duration := (i64OfNat outcome.duration).getD i64Max
  state := outcome.kind.completionState
  exitCode := outcome.exitCode
  httpStatus := outcome.httpStatus
  httpContentType := outcome.httpContentType
  reason := outcome.reason
  retry := decideRetry d.policy attempt completedAt outcome.kind.retryClass

/-- The outcome is one that the runner reports. What matters here are the reasons of the outcomes
that can be retried. -/
def ExecutionOutcome.Reported (outcome : ExecutionOutcome) : Prop :=
  match outcome.kind with
  | .failedRetryable => ∃ text, outcome.reason = "process exited with status " ++ text ∨
      outcome.reason = "HTTP transport error: " ++ text ∨
      outcome.reason = "HTTP body error: " ++ text ∨ outcome.reason = "HTTP response " ++ text
  | .timedOut => outcome.reason = "attempt timed out" ∨
      outcome.reason = "attempt timed out; owned process tree exit confirmed"
  | _ => True

theorem retryable_of_decideRetry {policy : ExecutionPolicy} {attempt : Nat} {completedAt : Int}
    {kind : OutcomeKind}
    (h : (decideRetry policy attempt completedAt kind.retryClass).isSome = true) :
    kind = .failedRetryable ∨ kind = .timedOut := by
  unfold decideRetry at h
  split at h
  · cases h
  cases kind with
  | failedRetryable => exact Or.inl rfl
  | timedOut => exact Or.inr rfl
  | _ => cases h

theorem ExecutionOutcome.Reported.unmarked {outcome : ExecutionOutcome} (h : outcome.Reported)
    (hkind : outcome.kind = .failedRetryable ∨ outcome.kind = .timedOut) :
    outcome.reason ≠ terminationUnconfirmed := by
  -- the first letters differ
  have hfirst : outcome.reason.toList.head? = some 'p' ∨ outcome.reason.toList.head? = some 'H' ∨
      outcome.reason.toList.head? = some 'a' := by
    unfold Reported at h
    rcases hkind with hkind | hkind
    · rw [hkind] at h
      obtain ⟨text, h | h | h | h⟩ := h
      · exact Or.inl (by rw [h, String.toList_append]; rfl)
      · exact Or.inr (Or.inl (by rw [h, String.toList_append]; rfl))
      · exact Or.inr (Or.inl (by rw [h, String.toList_append]; rfl))
      · exact Or.inr (Or.inl (by rw [h, String.toList_append]; rfl))
    · rw [hkind] at h
      rcases h with h | h
      · exact Or.inr (Or.inr (by rw [h]; rfl))
      · exact Or.inr (Or.inr (by rw [h]; rfl))
  intro heq
  rw [heq] at hfirst
  revert hfirst
  decide

namespace Store

/-- The operations of the daemon's adapter and of the clients beside it: completions are those that
the adapter builds from an outcome and the snapshot of the run. -/
def adapterOp (s : Store) : Op → Prop
  | .completeAttempt c => ∃ r d outcome, s.runs.find c.runId = some r ∧
      r.snapshot.definition = some d ∧ c = d.completion c.runId c.attemptNumber outcome c.now
  | _ => True

/-- The operations of the system: the outcomes that the adapter completes are reported by the
runner. -/
def systemOp (s : Store) : Op → Prop
  | .completeAttempt c => ∃ r d outcome, s.runs.find c.runId = some r ∧
      r.snapshot.definition = some d ∧ c = d.completion c.runId c.attemptNumber outcome c.now ∧
      outcome.Reported
  | _ => True

/-- **The runner never marks a retry** as a quarantine. -/
theorem unmarkedRetries_of_systemOp {s : Store} {op : Op} (h : s.systemOp op) :
    unmarkedRetries s op := by
  cases op with
  | completeAttempt c =>
    obtain ⟨r, d, outcome, -, -, hc, hreported⟩ := h
    intro hretry
    rw [hc] at hretry ⊢
    exact hreported.unmarked (retryable_of_decideRetry hretry)
  | _ => trivial

end Store

/-! ## Cancellation requests -/

/-- A retry is committed only for a run without a cancellation request. -/
def uncancelledRow : Permits := .ofRetry (fun r _ => r.cancellationRequestedAt = none)

/-- A pending run carries no request, and the two columns of a request are set together. -/
structure RunRow.Unrequested (r : RunRow) : Prop where
  pending : r.state.isPending = true → r.cancellationRequestedAt = none
  columns : r.cancellationReason.isSome = r.cancellationRequestedAt.isSome

def RunView.Unrequested (v : RunView) : Prop := ∀ r, v.run = some r → r.Unrequested

namespace RunRow.Unrequested

variable {r r' : RunRow}

/-- A row that is not pending needs its columns only. -/
theorem of_not_pending (h : r.Unrequested) (hstate : r'.state.isPending = false)
    (hat : r'.cancellationRequestedAt = r.cancellationRequestedAt)
    (hreason : r'.cancellationReason = r.cancellationReason) : r'.Unrequested := by
  refine ⟨fun hpending => ?_, ?_⟩
  · rw [hstate] at hpending
    cases hpending
  · rw [hat, hreason]
    exact h.columns

end RunRow.Unrequested

variable {id : Uuid} {v v' : RunView} {permits : Permits}

theorem OverlapStep.unrequested (h : OverlapStep permits id v v')
    (hv : v.Unrequested) : v'.Unrequested := by
  cases h with
  | insert r hid hnew hmay =>
    rintro _ ⟨⟩
    exact ⟨fun _ => hnew.no_request.1, by simp [hnew.no_request.1, hnew.no_request.2]⟩
  | supersede r now hpending =>
    rintro _ ⟨⟩
    exact (hv r rfl).of_not_pending rfl rfl rfl
  | requestReplacement r now hlive =>
    rintro _ ⟨⟩
    refine ⟨fun hpending => ?_, ?_⟩
    · have hno : r.state.isPending = false := RunState.not_pending_of_live hlive
      have hyes : r.state.isPending = true := hpending
      rw [hno] at hyes
      cases hyes
    · have hcolumns := (hv r rfl).columns
      simp only [RunRow.requestReplacement]
      cases hat : r.cancellationRequestedAt <;> cases hreason : r.cancellationReason <;>
        simp_all

/-- **No step leaves a request on a pending run**, if retries respect the requests. -/
theorem RunStep.unrequested (hv : v.Unrequested)
    (h : RunStep uncancelledRow id v v') : v'.Unrequested := by
  cases h with
  | keep => exact hv
  | overlap h =>
    induction h with
    | refl => exact hv
    | tail _ hlast ih => exact hlast.unrequested ih
  | start r | ready r | cancelBeforeSpawn r | quarantine r | failCandidate r | acknowledge r =>
    rintro _ ⟨⟩
    exact (hv r rfl).of_not_pending rfl rfl rfl
  | complete r c hstate hactive =>
    rintro _ ⟨⟩
    refine (hv r rfl).of_not_pending ?_ rfl rfl
    show c.state.runState.isPending = false
    cases c.state <;> rfl
  | retry r c plan hstate hactive hmay =>
    -- the one step back to a pending state: here the condition is used
    rintro _ ⟨⟩
    exact ⟨fun _ => hmay, (hv r rfl).columns⟩
  | preExecution r number now reason hactive =>
    rintro _ ⟨⟩
    split
    · exact (hv r rfl).of_not_pending rfl rfl rfl
    · exact hv r rfl
  | runnerFailure r r' attempts' number now duration reason started hrun hattempts happlied =>
    rintro _ ⟨⟩
    rw [hrun]
    split
    · refine (hv r rfl).of_not_pending ?_ rfl rfl
      cases started <;> rfl
    · exact hv r rfl
  | requestCancellation r now hlive =>
    rintro _ ⟨⟩
    refine ⟨fun hpending => ?_, rfl⟩
    have hno : r.state.isPending = false := RunState.not_pending_of_live hlive
    have hyes : r.state.isPending = true := hpending
    rw [hno] at hyes
    cases hyes
  | cancelPending r now hpending =>
    rintro _ ⟨⟩
    exact ⟨(fun hno => by cases hno), rfl⟩
  | interrupt _ now =>
    intro r' hr'
    obtain ⟨r, hr, rfl⟩ := Option.map_eq_some_iff.mp hr'
    split
    · exact (hv r hr).of_not_pending rfl rfl rfl
    · exact hv r hr
  | delete r hterminal hmay =>
    rintro _ ⟨⟩

theorem OverlapStep.keeps_request
    (h : Relation.ReflTransGen (OverlapStep permits id) v v') {r : RunRow} (hr : v.run = some r)
    (hrequest : r.cancellationRequestedAt.isSome = true) :
    ∃ r', v'.run = some r' ∧ r'.cancellationRequestedAt.isSome = true := by
  refine OverlapStep.keeps h (fun _ _ _ hkept => hkept) ?_ hr hrequest
  intro r₁ now hkept
  obtain ⟨t, ht⟩ := Option.isSome_iff_exists.mp hkept
  simp [RunRow.requestReplacement, ht]

/-- A request stays until the row is deleted. -/
theorem RunStep.keeps_request
    (h : RunStep permits id v v') {r r' : RunRow} (hr : v.run = some r) (hr' : v'.run = some r')
    (hrequest : r.cancellationRequestedAt.isSome = true) :
    r'.cancellationRequestedAt.isSome = true := by
  cases h with
  | keep =>
    rw [hr] at hr'
    cases hr'
    exact hrequest
  | overlap h =>
    obtain ⟨r₁, hr₁, hrequest₁⟩ := OverlapStep.keeps_request h hr hrequest
    rw [hr'] at hr₁
    cases hr₁
    exact hrequest₁
  | interrupt _ now =>
    rw [hr] at hr'
    cases hr'
    dsimp only
    split
    · exact hrequest
    · exact hrequest
  | preExecution r₀ number now reason hactive =>
    obtain rfl : r₀ = r := Option.some.inj hr
    cases hr'
    split
    · exact hrequest
    · exact hrequest
  | runnerFailure r₀ r₁ attempts' number now duration reason started hrun hattempts happlied =>
    obtain rfl : r₀ = r := Option.some.inj hr
    cases hr'
    rw [hrun]
    split
    · exact hrequest
    · exact hrequest
  | requestCancellation | cancelPending =>
    cases hr'
    rfl
  | delete _ _ _ => cases hr'
  | _ =>
    cases hr
    cases hr'
    exact hrequest

namespace Store

/-- Every retrying completion commits on a run without a cancellation request. -/
def uncancelledRetries (s : Store) : Op → Prop
  | .completeAttempt c => c.retry.isSome = true →
      ∀ r, s.runs.find c.runId = some r → r.cancellationRequestedAt = none
  | _ => True

variable {s : Store}

theorem permitted_of_uncancelled {op : Op} (h : uncancelledRetries s op) :
    Permitted uncancelledRow s op := by
  apply permitted_ofRetry
  rintro c rfl
  exact h

theorem Reachable.unrequested (h : Reachable uncancelledRetries s) (id : Uuid) :
    (s.view id).Unrequested :=
  h.view_induction (fun _ _ => permitted_of_uncancelled) (fun _ h => by cases h)
    RunStep.unrequested id

/-- **A cancelled run is never stuck**: in every run of operations whose retries commit on runs
without a cancellation request, no pending run carries one, and no operation makes a run pending
again whose cancellation was accepted. -/
theorem cancelled_not_stuck {s : Store} (h : Reachable uncancelledRetries s) :
    (∀ r ∈ s.runs.rows, r.state.isPending = true →
      r.cancellationRequestedAt = none ∧ r.cancellationReason = none) ∧
    ∀ op s', uncancelledRetries s op → s.apply op = .ok s' →
      ∀ r ∈ s.runs.rows, r.cancellationRequestedAt.isSome = true →
        ∀ r' ∈ s'.runs.rows, r'.id = r.id → r'.state.isPending = false := by
  constructor
  · intro r hr hpending
    have hrow := h.unrequested r.id r (Table.find_of_mem hr)
    have hat := hrow.pending hpending
    have hcolumns := hrow.columns
    rw [hat] at hcolumns
    exact ⟨hat, by simpa using hcolumns⟩
  · intro op s' hop happly r hr hrequest r' hr' hid
    have heffect := apply_effect h.owned (permitted_of_uncancelled hop) happly r.id
    have hfind' : s'.runs.find r.id = some r' := Table.find_eq_some.mpr ⟨hr', hid⟩
    have hrequest' := heffect.keeps_request (Table.find_of_mem hr) hfind' hrequest
    have hrow' := heffect.unrequested (h.unrequested r.id) r' hfind'
    by_contra hpending
    rw [hrow'.pending (by simpa using hpending)] at hrequest'
    cases hrequest'

/-! ## A request that the retry overtakes -/

def retryOnce : JobDefinition :=
  ⟨.every 3600000000 0, { ExecutionPolicy.default with retries := 1 }, .retain, "true"⟩

/-- A manual run of that job, running, and then cancelled by the user if `cancelled` is set. -/
def runningRun (cancelled : Bool) : List Op :=
  [.createJob ⟨1, "job", none, "[]", true, .job retryOnce, 0, 0⟩,
   .beginLifetime 2 0,
   .enqueueManual 1 1 (.job retryOnce) 3 0,
   .admitRuns (fun _ => some (.job retryOnce)) 2 0 1,
   .markAttemptRunning 3 1 0 none] ++ if cancelled then [.cancel 3 1 false] else []

/-- The target fails at time two, before the runner has seen a request. -/
def failedOutcome : ExecutionOutcome := ⟨.failedRetryable, some 1, none, none, "exited with 1", 2⟩

def failedCompletion : Op := .completeAttempt (retryOnce.completion 3 1 failedOutcome 2)

/-- The adapter's completion, in a state where the run still has its snapshot. -/
theorem adapterOp_failedCompletion
    (h : (s.runs.find 3).any (fun r => r.snapshot.definition = some retryOnce) = true) :
    adapterOp s failedCompletion := by
  simp only [Option.any_eq_true, decide_eq_true_eq] at h
  obtain ⟨r, hr, hsnapshot⟩ := h
  exact ⟨r, retryOnce, failedOutcome, hr, hsnapshot, rfl⟩

/-- The cancellation is accepted, the attempt fails, and the run waits for a retry with its request
on it. -/
theorem cancelled_run_waits :
    ∃ s, Reachable adapterOp s ∧
      ∃ r ∈ s.runs.rows, r.state = .retryWait ∧ r.cancellationReason = some "user" := by
  obtain ⟨s, hs, hsnapshot, s', happly, hwaits⟩ := exists_reachable adapterOp (runningRun true)
    (fun s => (s.runs.find 3).any (fun r => r.snapshot.definition = some retryOnce) = true ∧
      ∃ s', s.apply failedCompletion = .ok s' ∧
        ∃ r ∈ s'.runs.rows, r.state = .retryWait ∧ r.cancellationReason = some "user")
    (by simp [runningRun, adapterOp]) (by decide +kernel)
  exact ⟨s', hs.tail ⟨failedCompletion, adapterOp_failedCompletion hsnapshot, happly⟩, hwaits⟩

/-- Without the request the same retry meets the condition. -/
theorem cancelled_not_stuck_retried :
    ∃ s, Reachable uncancelledRetries s ∧ uncancelledRetries s failedCompletion ∧
      (∃ s', s.apply failedCompletion = .ok s') ∧
      ∀ r ∈ s.runs.rows, r.state.isPending = true →
        r.cancellationRequestedAt = none ∧ r.cancellationReason = none := by
  obtain ⟨s, hs, hnone, s', happly, -⟩ := exists_reachable uncancelledRetries (runningRun false)
    (fun s => (∀ r, s.runs.find 3 = some r → r.cancellationRequestedAt = none) ∧
      ∃ s', s.apply failedCompletion = .ok s' ∧ True)
    (by simp [runningRun, uncancelledRetries]) (by decide +kernel)
  exact ⟨s, hs, fun _ => hnone, ⟨s', happly⟩, (cancelled_not_stuck hs).1⟩

end Store

end Locron
