import Locron.Daemon.Admission
import Locron.Daemon.Completion

set_option autoImplicit false

/-! # The task of an attempt

The engine runs every attempt it is given in a task of its own. The task records the start, executes
the target and records the outcome; each of the three is repeated until the store gives an answer
that settles it. The task is seen here from the outside, as a machine that is driven by the answers
of the store. Its events tell why it ended, with one exception: a fallback that meets a transient
error is not repeated (`AttemptTask.ends_properly_iff`).
-/

namespace Locron

/-! ## Answers -/

inductive CompletionAnswer where
  | ok
  | conflict (text : String)
  | transient (text : String)
deriving DecidableEq, Repr

/-- Durable conflicts are permanent, every other error of the store is transient. -/
def mapCompletionError : StoreError → CompletionAnswer
  | .conflict message => .conflict (StoreError.conflict message).text
  | other => .transient other.text

inductive RunnerFailureKind where
  | outputPreparation
  | executionMayHaveStarted
deriving DecidableEq, Repr

/-- A failure of the runner, before there is an outcome of the target. -/
inductive RunnerError where
  | outputPreparation (error : String)
  | executionInfrastructure (error : String)
  | configuration (error : String)
deriving DecidableEq, Repr

namespace RunnerError

def failureKind : RunnerError → RunnerFailureKind
  | .outputPreparation _ | .configuration _ => .outputPreparation
  | .executionInfrastructure _ => .executionMayHaveStarted

def text : RunnerError → String
  | .outputPreparation error => "output preparation error: " ++ error
  | .executionInfrastructure error => "output error after execution may have begun: " ++ error
  | .configuration error => "configuration error: " ++ error

end RunnerError

/-- The outcome of a target, with the counters of its output file. -/
structure RunnerOutcome extends ExecutionOutcome where
  output : OutputStats

/-- The artifact as the adapter records it for an outcome. -/
def RunnerOutcome.record (outcome : RunnerOutcome) (key : Uuid × Nat) : OutputRecord where
  runId := key.1
  attemptNumber := key.2
  retainedPayloadBytes := (i64OfNat outcome.output.retainedBytes).getD i64Max
  physicalBytes := (i64OfNat outcome.output.physicalBytes).getD i64Max
  discardedBytes := (i64OfNat outcome.output.discardedBytes).getD i64Max
  truncated := outcome.output.truncated

theorem RunnerOutcome.not_negative_record (outcome : RunnerOutcome) (key : Uuid × Nat) :
    (outcome.record key).negative = false :=
  OutputRecord.not_negative (i64OfNat_getD_nonneg _) (i64OfNat_getD_nonneg _)
    (i64OfNat_getD_nonneg _)

/-! ## The task -/

/-- The delays between repeated calls, in nanoseconds. -/
structure TaskConfig where
  retryInitial : Nat
  retryCap : Nat

/-- The longest duration that can be represented. -/
def durationMax : Nat := (2 ^ 64 - 1) * 10 ^ 9 + 999999999

def nextRetryDelay (current cap : Nat) : Nat := min (min (current * 2) durationMax) cap

/-- Where the task is. The delay is the one before the call in progress is repeated; `first` says
that the call has not been made yet, so that a shutdown does not keep the task from making it. -/
inductive TaskPhase where
  | marking (delay : Nat)
  | executing
  | completing (outcome : RunnerOutcome) (completedAt : Int) (first : Bool) (delay : Nat)
  | fallingBack (reason : String) (completedAt : Int)
  | failing (kind : RunnerFailureKind) (reason : String) (completedAt : Int) (first : Bool)
      (delay : Nat)
  | ended

/-- What happens to the task: it sees the shutdown, its target ends, or the store answers. -/
inductive TaskEvent where
  | shutdown
  | marked (answer : Except String Bool)
  | executed (result : Except RunnerError RunnerOutcome) (completedAt : Int)
  | completed (answer : CompletionAnswer)
  | failureCompleted (answer : CompletionAnswer)

namespace AttemptTask

/-- The phase after an event; `none` if the event does not occur in the phase. -/
def step (config : TaskConfig) : TaskPhase → TaskEvent → Option TaskPhase
  | .marking _, .shutdown => some .ended
  | .marking _, .marked (.ok true) => some .executing
  | .marking _, .marked (.ok false) => some .ended
  | .marking delay, .marked (.error _) =>
    some (.marking (nextRetryDelay delay config.retryCap))
  | .executing, .executed (.ok outcome) completedAt =>
    some (.completing outcome completedAt true config.retryInitial)
  | .executing, .executed (.error error) completedAt =>
    some (.failing error.failureKind error.text completedAt true config.retryInitial)
  | .completing _ _ false _, .shutdown => some .ended
  | .completing _ _ _ _, .completed .ok => some .ended
  | .completing _ completedAt _ _, .completed (.conflict error) =>
    some (.fallingBack ("durable completion conflict after target outcome: " ++ error) completedAt)
  | .completing outcome completedAt _ delay, .completed (.transient _) =>
    some (.completing outcome completedAt false (nextRetryDelay delay config.retryCap))
  -- whatever the answer to the fallback is, the loop is left
  | .fallingBack _ _, .failureCompleted _ => some .ended
  | .failing _ _ _ false _, .shutdown => some .ended
  | .failing _ _ _ _ _, .failureCompleted .ok => some .ended
  | .failing _ _ _ _ _, .failureCompleted (.conflict _) => some .ended
  | .failing kind reason completedAt _ delay, .failureCompleted (.transient _) =>
    some (.failing kind reason completedAt false (nextRetryDelay delay config.retryCap))
  | _, _ => none

def run (config : TaskConfig) : List TaskEvent → TaskPhase → Option TaskPhase
  | [], phase => some phase
  | event :: events, phase => (step config phase event).bind (run config events)

def start (config : TaskConfig) : TaskPhase := .marking config.retryInitial

theorem run_append (config : TaskConfig) (events : List TaskEvent) (event : TaskEvent)
    (phase : TaskPhase) :
    run config (events ++ [event]) phase
      = (run config events phase).bind (fun p => step config p event) := by
  induction events generalizing phase with
  | nil =>
    show (step config phase event).bind some = step config phase event
    exact Option.bind_fun_some _
  | cons first rest ih =>
    show (step config phase first).bind (run config (rest ++ [event]))
      = ((step config phase first).bind (run config rest)).bind (fun p => step config p event)
    rw [Option.bind_assoc]
    exact congrArg _ (funext ih)

/-! ## Why a task ends -/

/-- The store refused for good: the completion and its fallback, or the record of a failed runner,
which has no fallback. -/
def Refused (events : List TaskEvent) : Prop :=
  (∃ error, .failureCompleted (.conflict error) ∈ events) ∧
    ((∃ error, .completed (.conflict error) ∈ events) ∨
      ∃ error completedAt, .executed (.error error) completedAt ∈ events)

/-- The start was refused, shutdown was requested, a completion was accepted, or all were
refused. -/
def EndsProperly (events : List TaskEvent) : Prop :=
  .marked (.ok false) ∈ events ∨ .shutdown ∈ events ∨
    (.completed .ok ∈ events ∨ .failureCompleted .ok ∈ events) ∨ Refused events

/-- The last answer is a transient error, to the fallback of a refused completion. -/
def TransientFallback (events : List TaskEvent) : Prop :=
  ∃ error error', [.completed (.conflict error), .failureCompleted (.transient error')] <:+ events

/-- No event so far ends a task, and no completion was refused. -/
structure Clean (events : List TaskEvent) : Prop where
  marked : .marked (.ok false) ∉ events
  shutdown : .shutdown ∉ events
  completed : .completed .ok ∉ events
  failureCompleted : .failureCompleted .ok ∉ events
  refused : ∀ error, .failureCompleted (.conflict error) ∉ events
  conflict : ∀ error, .completed (.conflict error) ∉ events

/-- What the events say about the phase they lead to. -/
def Explains (events : List TaskEvent) : TaskPhase → Prop
  | .marking _ | .executing | .completing _ _ _ _ => Clean events
  | .fallingBack _ _ => ∃ before error, Clean before ∧
    events = before ++ [.completed (.conflict error)]
  | .failing _ _ _ _ _ =>
    Clean events ∧ ∃ error completedAt, .executed (.error error) completedAt ∈ events
  | .ended => EndsProperly events ↔ ¬ TransientFallback events

section Explains

variable {events : List TaskEvent} {event : TaskEvent}

/-- An event that ends no task and refuses no completion keeps the record clean. -/
theorem Clean.append (h : Clean events)
    (hevent : Clean [event]) : Clean (events ++ [event]) := by
  constructor
  · exact fun hmem => (List.mem_append.mp hmem).elim h.marked hevent.marked
  · exact fun hmem => (List.mem_append.mp hmem).elim h.shutdown hevent.shutdown
  · exact fun hmem => (List.mem_append.mp hmem).elim h.completed hevent.completed
  · exact fun hmem => (List.mem_append.mp hmem).elim h.failureCompleted hevent.failureCompleted
  · exact fun e hmem => (List.mem_append.mp hmem).elim (h.refused e) (hevent.refused e)
  · exact fun e hmem => (List.mem_append.mp hmem).elim (h.conflict e) (hevent.conflict e)

/-- Without a refused completion the last answer is none to a fallback. -/
theorem Clean.not_transientFallback (h : Clean events) (event : TaskEvent) :
    ¬ TransientFallback (events ++ [event]) := by
  rintro ⟨error, error', before, hsplit⟩
  have hparts : before ++ [.completed (.conflict error)] = events := by
    have happend : (before ++ [.completed (.conflict error)]) ++
      [.failureCompleted (.transient error')]
        = events ++ [event] := by simpa using hsplit
    exact (List.append_inj' happend rfl).1
  have hmem : .completed (.conflict error) ∈ before ++ [TaskEvent.completed (.conflict error)] :=
    by simp
  rw [hparts] at hmem
  exact h.conflict error hmem

/-- A clean record is closed by an event that ends the task for a good reason. -/
theorem Clean.explains_ended (h : Clean events) (hends : EndsProperly (events ++ [event])) :
    Explains (events ++ [event]) .ended :=
  iff_of_true hends (h.not_transientFallback event)

/-- The answer to a fallback ends the task; for a good reason unless it is a transient error. -/
theorem explains_fallback {before : List TaskEvent} {error : String} (h : Clean before)
    (answer : CompletionAnswer) :
    Explains (before ++ [.completed (.conflict error)] ++ [.failureCompleted answer]) .ended := by
  have hlast : TransientFallback
      (before ++ [.completed (.conflict error)] ++ [.failureCompleted answer]) →
      ∃ text, answer = .transient text := by
    rintro ⟨e, text, first, hsplit⟩
    have happend : (first ++ [.completed (.conflict e)]) ++ [.failureCompleted (.transient text)]
        = (before ++ [.completed (.conflict error)]) ++ [.failureCompleted answer] := by
      simpa using hsplit
    have hend := (List.append_inj' happend rfl).2
    simp only [List.cons.injEq, TaskEvent.failureCompleted.injEq, and_true] at hend
    exact ⟨text, hend.symm⟩
  cases answer with
  | ok =>
    have hends : EndsProperly
        (before ++ [.completed (.conflict error)] ++ [.failureCompleted .ok]) :=
      Or.inr (Or.inr (Or.inl (Or.inr (by simp))))
    refine iff_of_true hends (fun hfallback => ?_)
    obtain ⟨text, htext⟩ := hlast hfallback
    cases htext
  | conflict text =>
    have hends : EndsProperly
        (before ++ [.completed (.conflict error)] ++ [.failureCompleted (.conflict text)]) :=
      Or.inr (Or.inr (Or.inr ⟨⟨text, by simp⟩, Or.inl ⟨error, by simp⟩⟩))
    refine iff_of_true hends (fun hfallback => ?_)
    obtain ⟨text, htext⟩ := hlast hfallback
    cases htext
  | transient text =>
    refine iff_of_false ?_ (not_not_intro ⟨error, text, before, by simp⟩)
    rintro (hmem | hmem | (hmem | hmem) | ⟨⟨e, hmem⟩, -⟩)
    · simp [h.marked] at hmem
    · simp [h.shutdown] at hmem
    · simp [h.completed] at hmem
    · simp [h.failureCompleted] at hmem
    · simp [h.refused] at hmem

theorem explains_step {config : TaskConfig} {phase phase' : TaskPhase} (h : Explains events phase)
    (hstep : step config phase event = some phase') : Explains (events ++ [event]) phase' := by
  have hmem : event ∈ events ++ [event] := List.mem_append_right _ (List.mem_singleton.mpr rfl)
  cases phase with
  | marking delay =>
    have hclean : Clean events := h
    cases event with
    | shutdown =>
      cases hstep
      exact hclean.explains_ended (Or.inr (Or.inl hmem))
    | marked answer =>
      rcases answer with error | _ | _
      · cases hstep
        exact hclean.append (by constructor <;> simp)
      · cases hstep
        exact hclean.explains_ended (Or.inl hmem)
      · cases hstep
        exact hclean.append (by constructor <;> simp)
    | _ => cases hstep
  | executing =>
    have hclean : Clean events := h
    cases event with
    | executed result completedAt =>
      have hnext : Clean (events ++ [.executed result completedAt]) :=
        hclean.append (by constructor <;> simp)
      cases result with
      | error error =>
        cases hstep
        exact ⟨hnext, error, completedAt, hmem⟩
      | ok outcome =>
        cases hstep
        exact hnext
    | _ => cases hstep
  | completing outcome completedAt first delay =>
    have hclean : Clean events := h
    cases event with
    | shutdown =>
      have hended : phase' = .ended := by
        cases first <;> cases hstep
        rfl
      subst hended
      exact hclean.explains_ended (Or.inr (Or.inl hmem))
    | completed answer =>
      cases answer with
      | ok =>
        cases first <;> cases hstep <;>
          exact hclean.explains_ended (Or.inr (Or.inr (Or.inl (Or.inl hmem))))
      | conflict error =>
        cases first <;> cases hstep <;> exact ⟨events, error, hclean, rfl⟩
      | transient error =>
        have hnext : Clean (events ++ [.completed (.transient error)]) :=
          hclean.append (by constructor <;> simp)
        cases first <;> cases hstep <;> exact hnext
    | _ => cases first <;> cases hstep
  | fallingBack reason completedAt =>
    obtain ⟨before, error, hclean, rfl⟩ := h
    cases event with
    | failureCompleted answer =>
      cases hstep
      exact explains_fallback hclean answer
    | _ => cases hstep
  | failing kind reason completedAt first delay =>
    obtain ⟨hclean, error, executedAt, hfailed⟩ := h
    have hfailed' : .executed (.error error) executedAt ∈ events ++ [event] :=
      List.mem_append_left _ hfailed
    cases event with
    | shutdown =>
      have hended : phase' = .ended := by
        cases first <;> cases hstep
        rfl
      subst hended
      exact hclean.explains_ended (Or.inr (Or.inl hmem))
    | failureCompleted answer =>
      cases answer with
      | ok =>
        cases first <;> cases hstep <;>
          exact hclean.explains_ended (Or.inr (Or.inr (Or.inl (Or.inr hmem))))
      | conflict text =>
        have hrefused : Refused (events ++ [.failureCompleted (.conflict text)]) :=
          ⟨⟨text, hmem⟩, Or.inr ⟨error, executedAt, hfailed'⟩⟩
        cases first <;> cases hstep <;>
          exact hclean.explains_ended (Or.inr (Or.inr (Or.inr hrefused)))
      | transient text =>
        have hnext : Clean (events ++ [.failureCompleted (.transient text)]) :=
          hclean.append (by constructor <;> simp)
        cases first <;> cases hstep <;> exact ⟨hnext, error, executedAt, hfailed'⟩
    | _ => cases first <;> cases hstep
  | ended => cases event <;> cases hstep

theorem explains_run {config : TaskConfig} (events : List TaskEvent) {phase : TaskPhase}
    (h : run config events (start config) = some phase) : Explains events phase := by
  induction events using List.reverseRecOn generalizing phase with
  | nil =>
    cases h
    exact ⟨by simp, by simp, by simp, by simp, by simp, by simp⟩
  | append_singleton events event ih =>
    rw [run_append] at h
    obtain ⟨before, hbefore, hstep⟩ := Option.bind_eq_some_iff.mp h
    exact explains_step (ih hbefore) hstep

end Explains

end AttemptTask

end Locron
