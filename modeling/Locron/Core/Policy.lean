import Locron.Core.Time

set_option autoImplicit false

/-! # Execution policies

Overlap, missed-run, retry and concurrency policy values, with their defaults and bounds.
-/

namespace Locron

/-- What happens to an occurrence that meets active work of the same job. -/
inductive OverlapPolicy where
  | skip
  | replace
  | allow
deriving DecidableEq, Repr

/-- What happens to occurrences that elapsed unobserved. -/
inductive MissedRunPolicy where
  | skip
  | latest
  | all
deriving DecidableEq, Repr

/-- Progression of the delay between retries. -/
inductive BackoffMode where
  | fixed
  | exponential
deriving DecidableEq, Repr

/-- A complete normalized execution policy; durations are in microseconds. -/
structure ExecutionPolicy where
  overlap : OverlapPolicy
  missedRun : MissedRunPolicy
  startDeadline : Option Nat
  catchUpLimit : Nat
  retries : Nat
  retryDelay : Nat
  retryCap : Nat
  backoff : BackoffMode
  retryTimeout : Bool
  timeout : Option Nat
  terminationGrace : Nat
  perJobConcurrency : Nat
deriving DecidableEq, Repr

namespace ExecutionPolicy

def default : ExecutionPolicy where
  overlap := .skip
  missedRun := .skip
  startDeadline := none
  catchUpLimit := 100
  retries := 0
  retryDelay := 10000000
  retryCap := 300000000
  backoff := .exponential
  retryTimeout := false
  timeout := some 60000000
  terminationGrace := 5000000
  perJobConcurrency := 1

/-- The bounds of the fields and the constraint between overlap and concurrency. -/
def validate (p : ExecutionPolicy) (globalConcurrency : Nat) : Except ValidationError Unit :=
  if ¬ (1 ≤ globalConcurrency ∧ globalConcurrency ≤ 64) then
    .error ⟨"global_concurrency", "out_of_range", "must be from 1 through 64"⟩
  else if ¬ (1 ≤ p.catchUpLimit ∧ p.catchUpLimit ≤ 1000) then
    .error ⟨"catch_up_limit", "out_of_range", "must be from 1 through 1000"⟩
  else if 10 < p.retries then
    .error ⟨"retries", "out_of_range", "must be from 0 through 10"⟩
  else
    let allowed := match p.overlap with
      | .allow => 2 ≤ p.perJobConcurrency && p.perJobConcurrency ≤ globalConcurrency
      | .skip => p.perJobConcurrency == 1
      | .replace => p.perJobConcurrency == 1
    if allowed then .ok ()
    else .error ⟨"per_job_concurrency", "invalid_for_overlap",
      "skip/replace require 1; allow requires 2 through global concurrency"⟩

/-- The default policy passes its own check. -/
theorem validate_default {n : Nat} (h : 1 ≤ n ∧ n ≤ 64) : default.validate n = .ok () := by
  simp [validate, default, h]

end ExecutionPolicy

end Locron
