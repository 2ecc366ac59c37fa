import Mathlib.Tactic

set_option autoImplicit false

/-! # Legal lifecycle transitions

The states of runs and attempts, with the tables of the steps between them.
-/

namespace Locron

/-- Durable run lifecycle. -/
inductive RunState where
  | queued
  | starting
  | running
  | retryWait
  | succeeded
  | failed
  | timedOut
  | cancelled
  | skippedOverlap
  | skippedConcurrency
  | interruptedUnknown
deriving DecidableEq, Repr

/-- Durable attempt lifecycle. -/
inductive AttemptState where
  | starting
  | running
  | succeeded
  | failed
  | timedOut
  | cancelled
  | interruptedUnknown
deriving DecidableEq, Repr

/-- A step that a table does not have. -/
structure InvalidTransition (α : Type) where
  source : α
  target : α
deriving DecidableEq, Repr

namespace RunState

/-- No step leaves a terminal state. -/
def isTerminal : RunState → Bool
  | .succeeded | .failed | .timedOut | .cancelled | .skippedOverlap | .skippedConcurrency
  | .interruptedUnknown => true
  | .queued | .starting | .running | .retryWait => false

/-- The documented run state machine. -/
def legal : RunState → RunState → Bool
  | .queued, .starting | .queued, .cancelled | .queued, .skippedOverlap
  | .queued, .skippedConcurrency => true
  | .starting, .running | .starting, .failed | .starting, .cancelled
  | .starting, .interruptedUnknown => true
  | .running, .succeeded | .running, .failed | .running, .timedOut | .running, .cancelled
  | .running, .retryWait | .running, .interruptedUnknown => true
  | .retryWait, .starting | .retryWait, .cancelled => true
  | _, _ => false

def transition (self next : RunState) : Except (InvalidTransition RunState) RunState :=
  if self.legal next then .ok next else .error ⟨self, next⟩

end RunState

namespace AttemptState

/-- The attempt has no durable result yet. -/
def isActive : AttemptState → Bool
  | .starting | .running => true
  | _ => false

/-- The documented attempt state machine. -/
def legal : AttemptState → AttemptState → Bool
  | .starting, .running | .starting, .failed | .starting, .cancelled
  | .starting, .interruptedUnknown => true
  | .running, .succeeded | .running, .failed | .running, .timedOut | .running, .cancelled
  | .running, .interruptedUnknown => true
  | _, _ => false

def transition (self next : AttemptState) : Except (InvalidTransition AttemptState) AttemptState :=
  if self.legal next then .ok next else .error ⟨self, next⟩

end AttemptState

end Locron
