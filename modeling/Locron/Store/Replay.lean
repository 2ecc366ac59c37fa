import Locron.Store.Activity

set_option autoImplicit false

/-! # Repeated completions

A completion whose attempt is no longer active is compared with what is recorded, and a recorded one
succeeds without a write. What the comparison needs holds of every run whatever the reasons of its
retries are (`RunRow.Orderly`): attempts are active one at a time, a recorded runner failure has
ended the run, and the result class of an attempt belongs to its state.
-/

namespace Locron

/-! ## Result classes -/

namespace AttemptState

def resultClasses : AttemptState → List String
  | .starting | .running => []
  | .succeeded => ["succeeded"]
  | .failed => ["failed", "output_preparation_failed"]
  | .timedOut => ["timed_out"]
  | .cancelled => ["cancelled"]
  | .interruptedUnknown => [terminationUnconfirmed, "interrupted_unknown"]

end AttemptState

namespace AttemptRow

/-- Duration and result class are recorded together, and the class fits the state. A new lifetime
closes an attempt without either. -/
def Classified (a : AttemptRow) : Prop :=
  (a.duration = none ∧ a.resultClass = none) ∨
    (a.duration.isSome = true ∧ ∃ x ∈ a.state.resultClasses, a.resultClass = some x)

theorem Classified.of_active {a : AttemptRow} (h : a.Classified)
    (hactive : a.state.isActive = true) : a.duration = none ∧ a.resultClass = none := by
  rcases h with hnone | ⟨-, x, hx, -⟩
  · exact hnone
  · revert hx hactive
    cases a.state <;> simp [AttemptState.isActive, AttemptState.resultClasses]

theorem Classified.of_duration {a : AttemptRow} (h : a.Classified) {duration : Int}
    (hduration : a.duration = some duration) :
    ∃ x ∈ a.state.resultClasses, a.resultClass = some x := by
  rcases h with ⟨hnone, -⟩ | ⟨-, hclass⟩
  · rw [hduration] at hnone
    cases hnone
  · exact hclass

theorem classified_close {state : AttemptState} {now duration : Int} {resultClass message : String}
    (hclass : resultClass ∈ state.resultClasses) (a : AttemptRow) :
    (a.close state now duration resultClass message).Classified :=
  Or.inr ⟨rfl, resultClass, hclass, rfl⟩

theorem classified_complete (c : AttemptCompletion) (a : AttemptRow) :
    (a.complete c).Classified := by
  refine Or.inr ⟨rfl, c.state.text, ?_, rfl⟩
  show c.state.text ∈ c.state.attemptState.resultClasses
  cases c.state <;>
    simp [CompletionState.text, CompletionState.attemptState, AttemptState.resultClasses]

theorem classified_runnerFailure {now duration : Int} {reason : String} (mayHaveStarted : Bool)
    (a : AttemptRow) : (a.close (Store.runnerFailureStates mayHaveStarted).1 now duration
      (Store.runnerFailureStates mayHaveStarted).2.2 reason).Classified :=
  classified_close (by
    cases mayHaveStarted <;> simp [Store.runnerFailureStates, AttemptState.resultClasses]) a

theorem Classified.markRunning {a : AttemptRow} (h : a.Classified) {id : Uuid} {number : Nat}
    (hstarting : a.isStartingOf id number = true) (now : Int) (executable : Option String) :
    (a.markRunning now executable).Classified := by
  simp only [isStartingOf, Bool.and_eq_true, decide_eq_true_eq] at hstarting
  exact Or.inl (h.of_active (by rw [hstarting.2]; rfl))

theorem Classified.interrupt {a : AttemptRow} (h : a.Classified)
    (hactive : a.state.isActive = true) (now : Int) : (a.interrupt now).Classified :=
  Or.inl (h.of_active hactive)

end AttemptRow

/-- The result class of a runner failure, before the start of the target or after. -/
def isRunnerFailure (resultClass : Option String) : Prop :=
  ∃ mayHaveStarted, resultClass = some (Store.runnerFailureStates mayHaveStarted).2.2

/-! ## One attempt at a time -/

/-- What holds of a run and its attempts in every run of operations, marked retries included. -/
structure RunRow.Orderly (r : RunRow) (attempts : List AttemptRow) : Prop where
  lone : NoneActive attempts ∨ LastActive attempts
  waiting : r.state.isPending = true → NoneActive attempts
  failure : ∀ a ∈ attempts, isRunnerFailure a.resultClass →
    r.state.isTerminal = true ∧ NoneActive attempts
  classified : ∀ a ∈ attempts, a.Classified

def RunView.Orderly (v : RunView) : Prop := ∀ r, v.run = some r → r.Orderly v.attempts

namespace RunRow.Orderly

variable {r r' : RunRow} {attempts : List AttemptRow} {id : Uuid} {number : Nat}
  {f : AttemptRow → AttemptRow}

theorem congr (h : r.Orderly attempts) (hstate : r'.state = r.state) : r'.Orderly attempts where
  lone := h.lone
  waiting := by rw [hstate]; exact h.waiting
  failure := by rw [hstate]; exact h.failure
  classified := h.classified

theorem of_terminal (hnone : NoneActive attempts) (hterminal : r.state.isTerminal = true)
    (hclassified : ∀ a ∈ attempts, a.Classified) : r.Orderly attempts where
  lone := Or.inl hnone
  waiting := fun _ => hnone
  failure := fun _ _ _ => ⟨hterminal, hnone⟩
  classified := hclassified

theorem finish_waiting (h : r.Orderly attempts) (hpending : r.state.isPending = true)
    (hterminal : r'.state.isTerminal = true) : r'.Orderly attempts :=
  of_terminal (h.waiting hpending) hterminal h.classified

theorem noneActive_close (h : r.Orderly attempts) (hactive : HasActive id number attempts)
    (hf : ∀ a, (f a).state.isActive = false) : NoneActive (onActive id number f attempts) := by
  rcases h.lone with hnone | hlast
  · exact absurd hnone (not_noneActive hactive)
  · exact noneActive_onActive hlast hactive hf

theorem classified_onActive (h : ∀ a ∈ attempts, a.Classified) (hf : ∀ a, (f a).Classified) :
    ∀ a ∈ onActive id number f attempts, a.Classified := by
  intro a ha
  obtain ⟨a₀, ha₀, rfl⟩ := List.mem_map.mp ha
  split
  · exact hf a₀
  · exact h a₀ ha₀

theorem finish_active (h : r.Orderly attempts) (hactive : HasActive id number attempts)
    (hf : ∀ a, (f a).state.isActive = false) (hclass : ∀ a, (f a).Classified)
    (hterminal : r'.state.isTerminal = true) : r'.Orderly (onActive id number f attempts) :=
  of_terminal (h.noneActive_close hactive hf) hterminal (classified_onActive h.classified hclass)

theorem close_active (h : r.Orderly attempts) (hactive : HasActive id number attempts)
    (hf : ∀ a, (f a).state.isActive = false) (hclass : ∀ a, (f a).Classified)
    (hother : ∀ a, ¬ isRunnerFailure (f a).resultClass) :
    r'.Orderly (onActive id number f attempts) := by
  have hnone := h.noneActive_close hactive hf
  refine ⟨Or.inl hnone, fun _ => hnone, ?_, classified_onActive h.classified hclass⟩
  intro a ha hfailure
  obtain ⟨a₀, ha₀, rfl⟩ := List.mem_map.mp ha
  split at hfailure
  · exact absurd hfailure (hother a₀)
  · -- after an earlier runner failure no attempt is active
    exact absurd (h.failure a₀ ha₀ hfailure).2 (not_noneActive hactive)

/-- A runner failure is recorded, now or before: the run is over. -/
theorem runnerFailure (h : r.Orderly attempts) (hf : ∀ a, (f a).state.isActive = false)
    (hclass : ∀ a, (f a).Classified) (hterminal : r'.state.isTerminal = true)
    (hrecorded : HasActive id number attempts ∨
      ∃ a ∈ onActive id number f attempts, isRunnerFailure a.resultClass) :
    r'.Orderly (onActive id number f attempts) := by
  by_cases hactive : HasActive id number attempts
  · exact h.finish_active hactive hf hclass hterminal
  rw [onActive_of_not_hasActive hactive] at hrecorded ⊢
  obtain ⟨a, ha, hfailure⟩ := hrecorded.resolve_left hactive
  exact of_terminal (h.failure a ha hfailure).2 hterminal h.classified

theorem start (h : r.Orderly attempts) (hpending : r.state.isPending = true) (lifetime : Uuid)
    (now : Int) : ({ r with state := .starting } : RunRow).Orderly
      (attempts ++ [.start id (nextNumber attempts) lifetime now]) := by
  refine ⟨Or.inr ⟨attempts, _, rfl, rfl, h.waiting hpending⟩, (fun h => by cases h), ?_, ?_⟩
  · intro a ha hfailure
    rcases List.mem_append.mp ha with hmem | hmem
    · have hterminal := (h.failure a hmem hfailure).1
      rw [not_terminal_of_pending hpending] at hterminal
      cases hterminal
    rw [List.mem_singleton.mp hmem] at hfailure
    obtain ⟨started, heq⟩ := hfailure
    cases heq
  · intro a ha
    rcases List.mem_append.mp ha with hmem | hmem
    · exact h.classified a hmem
    · rw [List.mem_singleton.mp hmem]
      exact Or.inl ⟨rfl, rfl⟩

theorem ready (h : r.Orderly attempts) (hstate : r.state = .starting) (now : Int)
    (executable : Option String) : ({ r with state := .running } : RunRow).Orderly
      (attempts.map (fun a => if a.isStartingOf id number then a.markRunning now executable
        else a)) := by
  have hkeep : ∀ a : AttemptRow, (if a.isStartingOf id number then a.markRunning now executable
      else a).state.isActive = a.state.isActive := by
    intro a
    split
    · next hstarting =>
      simp only [AttemptRow.isStartingOf, Bool.and_eq_true, decide_eq_true_eq] at hstarting
      rw [hstarting.2]
      rfl
    · rfl
  refine ⟨?_, (fun h => by cases h), ?_, ?_⟩
  · rcases h.lone with hnone | hlast
    · left
      intro b hb
      obtain ⟨a, ha, rfl⟩ := List.mem_map.mp hb
      rw [hkeep a]
      exact hnone a ha
    · exact Or.inr (hlast.map (fun a _ => hkeep a))
  · intro b hb hfailure
    obtain ⟨a, ha, rfl⟩ := List.mem_map.mp hb
    have hclass : isRunnerFailure a.resultClass := by
      split at hfailure <;> exact hfailure
    have hterminal := (h.failure a ha hclass).1
    rw [hstate] at hterminal
    cases hterminal
  · intro b hb
    obtain ⟨a, ha, rfl⟩ := List.mem_map.mp hb
    split
    · next hstarting => exact (h.classified a ha).markRunning hstarting now executable
    · exact h.classified a ha

/-- A new lifetime closes every attempt, and every run but those in quarantine. -/
theorem interrupt (h : r.Orderly attempts) (now : Int) :
    (if r.stale then r.interrupt now else r).Orderly
      (attempts.map (fun a => if a.state.isActive then a.interrupt now else a)) := by
  have hnone : NoneActive
      (attempts.map (fun a => if a.state.isActive then a.interrupt now else a)) := by
    intro b hb
    obtain ⟨a, -, rfl⟩ := List.mem_map.mp hb
    split
    · rfl
    · next hclosed => simpa using hclosed
  refine ⟨Or.inl hnone, fun _ => hnone, ?_, ?_⟩
  · intro b hb hfailure
    refine ⟨?_, hnone⟩
    obtain ⟨a, ha, rfl⟩ := List.mem_map.mp hb
    have hclass : isRunnerFailure a.resultClass := by
      split at hfailure <;> exact hfailure
    split
    · rfl
    · exact (h.failure a ha hclass).1
  · intro b hb
    obtain ⟨a, ha, rfl⟩ := List.mem_map.mp hb
    split
    · next hactive => exact (h.classified a ha).interrupt hactive now
    · exact h.classified a ha

end RunRow.Orderly

theorem OverlapStep.orderly {permits : Permits} {id : Uuid} {v v' : RunView}
    (h : OverlapStep permits id v v') (hv : v.Orderly) : v'.Orderly := by
  cases h with
  | insert r hid hnew hmay =>
    rintro _ ⟨⟩
    have hnone : NoneActive [] := fun _ ha => by cases ha
    exact ⟨Or.inl hnone, fun _ => hnone, (fun _ ha => by cases ha), (fun _ ha => by cases ha)⟩
  | supersede r now hpending =>
    rintro _ ⟨⟩
    exact (hv r rfl).finish_waiting hpending rfl
  | requestReplacement r now hlive =>
    rintro _ ⟨⟩
    exact (hv r rfl).congr rfl

theorem not_isRunnerFailure_text (c : AttemptCompletion) :
    ¬ isRunnerFailure (some c.state.text) := by
  rintro ⟨started, heq⟩
  revert heq
  cases c.state <;> cases started <;>
    simp [CompletionState.text, Store.runnerFailureStates, terminationUnconfirmed]

/-- **Every step of a run keeps it orderly.** -/
theorem RunStep.orderly {permits : Permits} {id : Uuid} {v v' : RunView} (hv : v.Orderly)
    (h : RunStep permits id v v') : v'.Orderly := by
  cases h with
  | keep => exact hv
  | overlap h =>
    induction h with
    | refl => exact hv
    | tail _ hlast ih => exact hlast.orderly ih
  | start r lifetime now hpending hrequest =>
    rintro _ ⟨⟩
    exact (hv r rfl).start hpending lifetime now
  | ready r number now executable hstate hcancel hattempt =>
    rintro _ ⟨⟩
    exact (hv r rfl).ready hstate now executable
  | cancelBeforeSpawn r number now reason hlive hcancel hactive =>
    rintro _ ⟨⟩
    exact (hv r rfl).finish_active hactive (fun _ => rfl)
      (AttemptRow.classified_close (by simp [AttemptState.resultClasses])) rfl
  | complete r c _ hactive | retry r c _ _ hactive =>
    rintro _ ⟨⟩
    exact (hv r rfl).close_active hactive (AttemptRow.not_active_complete c)
      (AttemptRow.classified_complete c) (fun _ => not_isRunnerFailure_text c)
  | quarantine r number now duration reason hlive hactive hmay =>
    rintro _ ⟨⟩
    refine (hv r rfl).close_active hactive (fun _ => rfl)
      (AttemptRow.classified_close (by simp [AttemptState.resultClasses])) ?_
    rintro _ ⟨started, heq⟩
    cases started <;>
      simp [AttemptRow.close, terminationUnconfirmed, Store.runnerFailureStates] at heq
  | failCandidate r _ _ hpending | cancelPending r _ hpending =>
    rintro _ ⟨⟩
    exact (hv r rfl).finish_waiting hpending rfl
  | preExecution r number now reason hactive =>
    rintro _ ⟨⟩
    refine (hv r rfl).close_active hactive (fun _ => rfl)
      (AttemptRow.classified_close (by simp [AttemptState.resultClasses])) ?_
    rintro _ ⟨started, heq⟩
    cases started <;> simp [AttemptRow.close, Store.runnerFailureStates] at heq
  | runnerFailure r r' attempts' number now duration reason started hrun hattempts happlied =>
    rintro _ ⟨⟩
    subst hattempts
    have hover : (Store.runnerFailureStates started).2.1.isTerminal = true := by
      cases started <;> rfl
    refine (hv r rfl).runnerFailure (by intro a; cases started <;> rfl)
      (AttemptRow.classified_runnerFailure started) ?_ ?_
    · rcases happlied with ⟨hlive, -⟩ | ⟨hstate, -⟩
      · rw [hrun, if_pos hlive]
        exact hover
      · rw [hstate]
        exact hover
    · refine happlied.imp And.right ?_
      rintro ⟨-, a, ha, -, hclass⟩
      exact ⟨a, ha, started, hclass⟩
  | requestCancellation r now hlive =>
    rintro _ ⟨⟩
    exact (hv r rfl).congr rfl
  | acknowledge r now hquarantined hmay =>
    rintro _ ⟨⟩
    have hr := hv r rfl
    refine ⟨hr.lone, (fun h => by cases h), ?_, hr.classified⟩
    intro a ha hfailure
    exact ⟨rfl, (hr.failure a ha hfailure).2⟩
  | interrupt _ now =>
    intro r' hr'
    obtain ⟨r, hr, rfl⟩ := Option.map_eq_some_iff.mp hr'
    exact (hv r hr).interrupt now
  | delete r hterminal hmay => rintro _ ⟨⟩

/-! ## Completion calls -/

inductive CompletionCall where
  | attempt (completion : AttemptCompletion)
  | preExecutionFailure (run : Uuid) (number : Nat) (output : Option OutputRecord) (now : Int)
      (reason : String)
  | runnerFailure (run : Uuid) (number : Nat) (now : Int) (reason : String)
      (mayHaveStarted : Bool)

namespace CompletionCall

def op : CompletionCall → Op
  | .attempt c => .completeAttempt c
  | .preExecutionFailure run number output now reason =>
    .completePreExecutionFailure run number output now reason
  | .runnerFailure run number now reason mayHaveStarted =>
    .completeRunnerFailure run number now reason mayHaveStarted

def key : CompletionCall → Uuid × Nat
  | .attempt c => (c.runId, c.attemptNumber)
  | .preExecutionFailure run number _ _ _ => (run, number)
  | .runnerFailure run number _ _ _ => (run, number)

/-- The retry that the call asks for, as it is written down. -/
def intent : CompletionCall → Option RetryIntentRow
  | .attempt c => c.retry.map (fun plan =>
    ⟨c.runId, c.attemptNumber, plan.notBefore, plan.classification, c.now⟩)
  | _ => none

def close (a : AttemptRow) : CompletionCall → AttemptRow
  | .attempt c =>
    if c.state = .terminationUnconfirmed then
      a.close .interruptedUnknown c.now c.duration terminationUnconfirmed c.reason
    else a.complete c
  | .preExecutionFailure _ _ _ now reason => a.close .failed now 0 "failed" reason
  | .runnerFailure _ _ now reason mayHaveStarted =>
    a.close (Store.runnerFailureStates mayHaveStarted).1 now
      (if mayHaveStarted then max 0 (now - a.runningAt.getD a.startedAt) else 0)
      (Store.runnerFailureStates mayHaveStarted).2.2 reason

def finish (r : RunRow) : CompletionCall → RunRow
  | .attempt c =>
    if c.state = .terminationUnconfirmed then r.quarantine
    else match c.retry with
      | some plan => r.retry plan.notBefore c.reason
      | none => r.finish c.state.runState c.reason c.now
  | .preExecutionFailure _ _ _ now reason => r.finish .failed reason now
  | .runnerFailure _ _ now reason mayHaveStarted =>
    r.finishCandidate (Store.runnerFailureStates mayHaveStarted).2.1 reason now

end CompletionCall

namespace Store

/-- The call is recorded: its attempt has exactly the row that the call writes, the run has the
state, the reason and the due time that it writes, and a retry is written down as it asks. -/
def Recorded (s : Store) (call : CompletionCall) : Prop :=
  ∃ a r, s.attempts.find call.key = some a ∧ s.runs.find call.key.1 = some r ∧
    call.close a = a ∧ (call.finish r).state = r.state ∧ (call.finish r).reason = r.reason ∧
    (call.finish r).eligibleAt = r.eligibleAt ∧
    ∀ row, call.intent = some row → s.retryIntents.find call.key.1 = some row

theorem Reachable.orderly {s : Store} (h : Reachable anyOp s) (id : Uuid) : (s.view id).Orderly :=
  h.view_induction (fun s op _ => permitted_all s op) (fun _ h => by cases h) RunStep.orderly id

section Calls

variable {s s' : Store} {run : Uuid} {number : Nat} {c : AttemptCompletion}

theorem attemptActive_of_count (h : s.attempts.count (AttemptRow.isActiveOf run number) = 1) :
    s.attemptActive (run, number) = true := by
  obtain ⟨a, ha, hof⟩ := hasActive_of_count h
  simp only [AttemptRow.isActiveOf, Bool.and_eq_true, decide_eq_true_eq] at hof
  exact attemptActive_iff.mpr ⟨a, ha, Prod.ext hof.1.1 hof.1.2, hof.2⟩

theorem count_ne_of_inactive (h : s.attemptActive (run, number) = false) :
    s.attempts.count (AttemptRow.isActiveOf run number) ≠ 1 := by
  intro hcount
  rw [attemptActive_of_count hcount] at h
  cases h

theorem find_of_attemptActive (h : s.attemptActive (run, number) = true) :
    ∃ a, s.attempts.find (run, number) = some a ∧ a.isActiveOf run number = true := by
  unfold attemptActive at h
  obtain ⟨a, ha, hactive⟩ := (Option.any_eq_true _ _).mp h
  have hkey : a.key = (run, number) := Table.key_of_find ha
  have hrun : a.runId = run := congrArg Prod.fst hkey
  have hnumber : a.number = number := congrArg Prod.snd hkey
  exact ⟨a, ha, by simp [AttemptRow.isActiveOf, hrun, hnumber, hactive]⟩

theorem find_closed {f : AttemptRow → AttemptRow} {a : AttemptRow} (hf : ∀ a, (f a).key = a.key)
    (h : s'.attempts = s.attempts.update (AttemptRow.isActiveOf run number) f hf)
    (ha : s.attempts.find (run, number) = some a) (hactive : a.isActiveOf run number = true) :
    s'.attempts.find (run, number) = some (f a) := by
  rw [h, Table.find_update, ha, Option.map_some, if_pos hactive]

/-! ## Attempt completions -/

/-- A completion of an inactive attempt that passes for a repeated one. -/
def recognises (s : Store) (c : AttemptCompletion) : Bool :=
  if c.state = .terminationUnconfirmed then c.retry.isNone && s.terminationCompletionCommitted c
  else (c.retry.isNone || c.state = .failed || c.state = .timedOut)
    && s.completionAlreadyCommitted c

/-- **A completion of an inactive attempt never writes**, and succeeds if it is recognised. -/
theorem completeAttempt_of_inactive (h : s.attemptActive (c.runId, c.attemptNumber) = false) :
    s.completeAttempt c = .ok s' ↔ s.recognises c = true ∧ s' = s := by
  have hcount := count_ne_of_inactive h
  unfold completeAttempt completeUnconfirmed recognises
  rw [if_pos hcount, if_pos hcount]
  by_cases hstate : c.state = .terminationUnconfirmed
  · rw [if_pos hstate, if_pos hstate]
    cases c.retry with
    | some plan => simp
    | none =>
      cases s.terminationCompletionCommitted c with
      | true => simp [eq_comm]
      | false => simp
  · rw [if_neg hstate, if_neg hstate]
    by_cases hguard : (c.retry.isSome && c.state != .failed && c.state != .timedOut) = true
    · rw [if_pos hguard]
      have hno : (c.retry.isNone || decide (c.state = .failed) || decide (c.state = .timedOut))
          = false := by
        simp only [Bool.and_eq_true, bne_iff_ne, ne_eq] at hguard
        simp [hguard]
      simp [hno]
    · rw [if_neg hguard]
      have hyes : (c.retry.isNone || decide (c.state = .failed) || decide (c.state = .timedOut))
          = true := by
        cases hretry : c.retry with
        | none => rfl
        | some plan =>
          simp only [hretry, Option.isSome_some, Bool.true_and, Bool.and_eq_true, bne_iff_ne,
            ne_eq, not_and, not_not] at hguard
          by_cases hfailed : c.state = .failed
          · simp [hfailed]
          · simp [hguard hfailed]
      rw [hyes, Bool.true_and]
      cases s.completionAlreadyCommitted c with
      | true => simp [eq_comm]
      | false => simp

/-- A quarantine is recognised right after it was recorded. -/
theorem completeUnconfirmed_recorded (hactive : s.attemptActive (c.runId, c.attemptNumber) = true)
    (h : s.completeUnconfirmed c = .ok s') : s'.terminationCompletionCommitted c = true := by
  obtain ⟨a, ha, hof⟩ := find_of_attemptActive hactive
  unfold completeUnconfirmed at h
  rw [if_neg (not_not.mpr (count_active hactive))] at h
  obtain ⟨-, h⟩ := Except.guard_eq_ok.mp h
  dsimp only at h
  split at h
  · cases h
  next r hr =>
  obtain ⟨hfind, hlive⟩ := Option.filter_eq_some_iff.mp hr
  have hrun : s.runs.find c.runId = some r := hfind
  have hid : r.id = c.runId := Table.key_of_find hrun
  have heq := Except.ok.inj h
  have hattempt : s'.attempts.find (c.runId, c.attemptNumber) = some (a.close
      .interruptedUnknown c.now c.duration terminationUnconfirmed c.reason) := by
    refine find_closed AttemptRow.key_close ?_ ha hof
    rw [← heq]
    split <;> rfl
  -- the run is running, so it is none of the candidates that fail with it
  have hquarantined : s'.runs.find c.runId = some r.quarantine := by
    rw [← heq]
    split
    · simp [event, updateRuns, deleteRetryIntents, updateAttempts, Table.find_update, hrun, hid,
        RunRow.quarantine, RunState.isPending]
    · simp [event, updateRuns, deleteRetryIntents, updateAttempts, Table.find_update, hrun, hid]
  unfold terminationCompletionCommitted
  rw [hattempt, hquarantined]
  simp [AttemptRow.close, RunRow.quarantine, RunRow.quarantined]

/-- A completion of an active attempt is recognised right after it was recorded, unless it retries a
run that was finished before. -/
theorem completeAttempt_recognised {r : RunRow} (hrun : s.runs.find c.runId = some r)
    (hactive : s.attemptActive (c.runId, c.attemptNumber) = true)
    (h : s.completeAttempt c = .ok s') :
    s'.recognises c = true ↔ (c.retry.isSome = true → r.finishedAt = none) := by
  obtain ⟨a, ha, hof⟩ := find_of_attemptActive hactive
  have hid : r.id = c.runId := Table.key_of_find hrun
  unfold completeAttempt at h
  unfold recognises
  split at h
  · next hstate =>
    obtain ⟨hretry, h⟩ := Except.guard_eq_ok.mp h
    have hnone : c.retry = none := by simpa using hretry
    rw [if_pos hstate, completeUnconfirmed_recorded hactive h, hnone]
    simp
  · next hstate =>
    obtain ⟨hguard, h⟩ := Except.guard_eq_ok.mp h
    rw [if_neg (not_not.mpr (count_active hactive))] at h
    obtain ⟨-, h⟩ := Except.guard_eq_ok.mp h
    dsimp only at h
    -- the row of the attempt is the same with and without a retry
    have hattempt : s'.attempts
        = s.attempts.update (AttemptRow.isActiveOf c.runId c.attemptNumber) (AttemptRow.complete c)
          AttemptRow.key_complete → s'.attempts.find (c.runId, c.attemptNumber)
        = some (a.complete c) := fun h => find_closed AttemptRow.key_complete h ha hof
    split at h
    · next plan hplan =>
      have heq := Except.ok.inj h
      have hfound := hattempt (by rw [← heq]; rfl)
      have hretried : s'.runs.find c.runId = some (r.retry plan.notBefore c.reason) := by
        rw [← heq]
        simp [putRetryIntent, updateRuns, updateAttempts, Table.find_update, hrun, hid]
      have hintent : s'.retryIntents.exist (fun i => i.runId = c.runId
          && i.priorAttemptNumber = c.attemptNumber && i.notBefore = plan.notBefore
          && i.classification = plan.classification && i.createdAt = c.now) = true := by
        rw [← heq]
        simp [putRetryIntent, Table.replace]
      have hallowed : c.state = .failed ∨ c.state = .timedOut := by
        by_contra hother
        exact hguard (by simpa [hplan, not_or] using hother)
      rw [if_neg hstate]
      unfold completionAlreadyCommitted
      rw [hfound, hretried]
      simp [AttemptRow.complete, AttemptRow.close, RunRow.retry, hplan, hintent, hallowed]
    · next hplan =>
      have heq := Except.ok.inj h
      have hfound := hattempt (by rw [← heq]; exact (sameRuns_softRemove ..).attempts)
      have hfinished : s'.runs.find c.runId
          = some (r.finish c.state.runState c.reason c.now) := by
        rw [← heq, (sameRuns_softRemove ..).runs]
        simp [deleteRetryIntents, updateRuns, updateAttempts, Table.find_update, hrun, hid]
      have hintents : s'.retryIntents.exist (fun i => i.runId = c.runId) = false := by
        rw [← heq, (sameRuns_softRemove ..).retryIntents]
        simp [deleteRetryIntents, updateRuns, updateAttempts, Table.exist, Table.rows_delete]
      rw [if_neg hstate]
      unfold completionAlreadyCommitted
      rw [hfound, hfinished]
      simp [AttemptRow.complete, AttemptRow.close, RunRow.finish, hplan, hintents]

/-- What is recognised is recorded, but for an output preparation failure that passes for an
ordinary one. -/
theorem recorded_of_recognises {a : AttemptRow} {r : RunRow}
    (ha : s.attempts.find (c.runId, c.attemptNumber) = some a)
    (hr : s.runs.find c.runId = some r) (horderly : r.Orderly (s.view c.runId).attempts)
    (h : s.recognises c = true) (hclass : a.resultClass ≠ some "output_preparation_failed") :
    s.Recorded (.attempt c) := by
  have hmem : a ∈ (s.view c.runId).attempts := by
    have hkey : a.key = (c.runId, c.attemptNumber) := Table.key_of_find ha
    exact mem_view_attempts.mpr ⟨Table.mem_of_find ha, congrArg Prod.fst hkey⟩
  unfold recognises at h
  split at h
  · next hstate =>
    simp only [Bool.and_eq_true, Option.isNone_iff_eq_none] at h
    obtain ⟨hretry, hcommitted⟩ := h
    unfold terminationCompletionCommitted at hcommitted
    rw [ha, hr] at hcommitted
    simp only [Bool.and_eq_true, decide_eq_true_eq] at hcommitted
    obtain ⟨⟨⟨⟨hattempt, hfinished⟩, hduration⟩, hmessage⟩, hquarantined⟩ := hcommitted
    -- a runner failure would have ended the run
    have hmark : a.resultClass = some terminationUnconfirmed := by
      obtain ⟨x, hx, hrecorded⟩ := (horderly.classified a hmem).of_duration hduration
      rw [hattempt] at hx
      simp only [AttemptState.resultClasses, List.mem_cons, List.not_mem_nil, or_false] at hx
      rcases hx with rfl | rfl
      · exact hrecorded
      have hover := (horderly.failure a hmem ⟨true, hrecorded⟩).1
      rw [RunRow.not_terminal_of_live (RunRow.live_of_quarantined hquarantined)] at hover
      cases hover
    simp only [RunRow.quarantined, Bool.and_eq_true, decide_eq_true_eq] at hquarantined
    refine ⟨a, r, ha, hr, ?_, ?_, ?_, ?_, ?_⟩
    · simp only [CompletionCall.close, if_pos hstate, AttemptRow.close]
      rw [← hattempt, ← hfinished, ← hduration, ← hmark, ← hmessage]
    · simp [CompletionCall.finish, hstate, RunRow.quarantine, hquarantined]
    · simp [CompletionCall.finish, hstate, RunRow.quarantine, hquarantined]
    · simp [CompletionCall.finish, hstate, RunRow.quarantine]
    · simp [CompletionCall.intent, hretry]
  · next hstate =>
    simp only [Bool.and_eq_true] at h
    obtain ⟨-, hcommitted⟩ := h
    unfold completionAlreadyCommitted at hcommitted
    rw [ha, hr] at hcommitted
    simp only [Bool.and_eq_true, decide_eq_true_eq] at hcommitted
    obtain ⟨⟨⟨⟨⟨⟨⟨⟨hattempt, hfinished⟩, hduration⟩, hexit⟩, hstatus⟩, htype⟩, hmessage⟩, hreason⟩,
      hplan⟩ := hcommitted
    have htext : a.resultClass = some c.state.text := by
      obtain ⟨x, hx, hrecorded⟩ := (horderly.classified a hmem).of_duration hduration
      rw [hattempt] at hx
      revert hx hstate
      cases c.state <;> simp_all [AttemptState.resultClasses, CompletionState.attemptState,
        CompletionState.text]
    refine ⟨a, r, ha, hr, ?_, ?_⟩
    · simp only [CompletionCall.close, if_neg hstate, AttemptRow.complete, AttemptRow.close]
      rw [← hattempt, ← hfinished, ← hduration, ← htext, ← hmessage, ← hexit, ← hstatus, ← htype]
    · simp only [CompletionCall.finish, if_neg hstate, CompletionCall.intent]
      cases hretry : c.retry with
      | none =>
        simp only [hretry, Bool.and_eq_true, decide_eq_true_eq] at hplan
        simp [RunRow.finish, hplan, hreason]
      | some plan =>
        simp only [hretry, Bool.and_eq_true, decide_eq_true_eq, Table.exist_iff] at hplan
        obtain ⟨⟨⟨hwaiting, hdue⟩, -⟩, i, hi, hintent⟩ := hplan
        refine ⟨hwaiting.symm, hreason.symm, hdue.symm, ?_⟩
        intro row hrow
        cases hrow
        obtain ⟨⟨⟨⟨hrunId, hprior⟩, hbefore⟩, hclassification⟩, hcreated⟩ := hintent
        refine Table.find_eq_some.mpr ⟨?_, rfl⟩
        dsimp only
        rw [← hrunId, ← hprior, ← hbefore, ← hclassification, ← hcreated]
        exact hi

/-! ## Failures before execution -/

theorem completePreExecutionFailure_of_inactive {output : Option OutputRecord} {now : Int}
    {reason : String} (h : s.attemptActive (run, number) = false) :
    ∃ e, s.completePreExecutionFailure run number output now reason = .error e := by
  cases hresult : s.completePreExecutionFailure run number output now reason with
  | error e => exact ⟨e, rfl⟩
  | ok s' =>
    unfold completePreExecutionFailure at hresult
    obtain ⟨-, hresult⟩ := Except.guard_eq_ok.mp hresult
    obtain ⟨-, hresult⟩ := Except.guard_eq_ok.mp hresult
    obtain ⟨-, hresult⟩ := Except.guard_eq_ok.mp hresult
    obtain ⟨hcount, -⟩ := Except.guard_eq_ok.mp hresult
    exact absurd (not_not.mp hcount) (count_ne_of_inactive h)

theorem completePreExecutionFailure_closes {output : Option OutputRecord} {now : Int}
    {reason : String} (h : s.completePreExecutionFailure run number output now reason = .ok s') :
    s'.attemptActive (run, number) = false := by
  unfold completePreExecutionFailure at h
  obtain ⟨-, h⟩ := Except.guard_eq_ok.mp h
  obtain ⟨-, h⟩ := Except.guard_eq_ok.mp h
  obtain ⟨-, h⟩ := Except.guard_eq_ok.mp h
  obtain ⟨-, h⟩ := Except.guard_eq_ok.mp h
  dsimp only at h
  split at h
  · cases h
  refine not_active_of_closed (s := s) (AttemptRow.close .failed now 0 "failed" reason)
    AttemptRow.key_close ?_ (fun _ => rfl)
  rw [← Except.ok.inj h]
  exact (sameRuns_softRemove ..).attempts

/-! ## Runner failures -/

/-- Nothing is left that a runner failure would write to. -/
structure Quiet (s : Store) (run : Uuid) (number : Nat) : Prop where
  outputs : ∀ o ∈ s.outputs.rows, o.isOf run number [.pending, .active] = false
  attempts : ∀ a ∈ s.attempts.rows, a.isActiveOf run number = false
  runs : ∀ r ∈ s.runs.rows, (decide (r.id = run) && r.state.isLive) = false
  intents : ∀ i ∈ s.retryIntents.rows, decide (i.runId = run) = false

section RunnerFailure

variable {now duration : Int} {reason : String} {mayHaveStarted : Bool}

theorem Quiet.congr (h : s.Quiet run number) (hsame : SameRuns s s') : s'.Quiet run number where
  outputs := by rw [hsame.outputs]; exact h.outputs
  attempts := by rw [hsame.attempts]; exact h.attempts
  runs := by rw [hsame.runs]; exact h.runs
  intents := by rw [hsame.retryIntents]; exact h.intents

theorem applyRunnerFailure_of_quiet (h : s.Quiet run number) :
    s.applyRunnerFailure run number now duration reason mayHaveStarted = s := by
  unfold applyRunnerFailure updateOutputs updateAttempts updateRuns deleteRetryIntents
  dsimp only
  rw [Table.update_eq_self _ h.outputs, Table.update_eq_self _ h.attempts,
    Table.update_eq_self _ h.runs, Table.delete_eq_self _ h.intents]

/-- The writes of a runner failure leave nothing to write. -/
theorem quiet_applyRunnerFailure :
    (s.applyRunnerFailure run number now duration reason mayHaveStarted).Quiet run number := by
  constructor
  · intro o ho
    obtain ⟨o₀, -, rfl⟩ := List.mem_map.mp ho
    split
    · simp [OutputRow.isOf, OutputRow.lose, OutputRow.markMissing]
    · next hno => simpa using hno
  · intro a ha
    obtain ⟨a₀, -, rfl⟩ := List.mem_map.mp ha
    split
    · cases mayHaveStarted <;> exact Bool.and_false _
    · next hno => simpa using hno
  · intro r hr
    obtain ⟨r₀, -, rfl⟩ := List.mem_map.mp hr
    split
    · cases mayHaveStarted <;> exact Bool.and_false _
    · next hno => simpa using hno
  · intro i hi
    simpa using (List.mem_filter.mp hi).2

theorem runnerFailureCommitted_congr (hsame : SameRuns s s') :
    s'.runnerFailureCommitted run number reason mayHaveStarted
      = s.runnerFailureCommitted run number reason mayHaveStarted := by
  unfold runnerFailureCommitted
  rw [hsame.outputs, hsame.attempts, hsame.runs, hsame.retryIntents]

/-- A runner failure that finds itself recorded, and nothing to write, changes nothing. -/
theorem completeRunnerFailure_of_quiet (h : s.Quiet run number)
    (hcommitted : s.runnerFailureCommitted run number reason mayHaveStarted = true) :
    s.completeRunnerFailure run number now reason mayHaveStarted = .ok s := by
  have hcount : s.attempts.count (AttemptRow.isActiveOf run number) = 0 :=
    List.countP_eq_zero.mpr (fun a ha => by simp [h.attempts a ha])
  unfold completeRunnerFailure
  dsimp only
  cases ha : s.attempts.find (run, number) with
  | none =>
    unfold runnerFailureCommitted at hcommitted
    simp [ha] at hcommitted
  | some a =>
    dsimp only
    rw [applyRunnerFailure_of_quiet h, hcount]
    simp [hcommitted]

/-- The three rows and the intents, right after a runner failure has changed them all. -/
theorem committed_applyRunnerFailure {a : AttemptRow} {r : RunRow} {o : OutputRow}
    (ha : s.attempts.find (run, number) = some a) (hactive : a.isActiveOf run number = true)
    (hr : s.runs.find run = some r) (hlive : r.state.isLive = true)
    (ho : s.outputs.find (run, number) = some o)
    (hopen : o.isOf run number [.pending, .active] = true) :
    (s.applyRunnerFailure run number now duration reason mayHaveStarted).runnerFailureCommitted
      run number reason mayHaveStarted = true := by
  have hid : r.id = run := Table.key_of_find hr
  unfold runnerFailureCommitted applyRunnerFailure updateOutputs updateAttempts updateRuns
    deleteRetryIntents
  dsimp only
  rw [Table.find_update, Table.find_update, Table.find_update, ha, hr, ho]
  simp [hactive, hopen, hid, hlive, AttemptRow.close, RunRow.finishCandidate, RunRow.finish,
    OutputRow.lose, OutputRow.markMissing, Table.exist, Table.rows_delete]

theorem find_output_of_count {states : List OutputState}
    (h : s.outputs.count (OutputRow.isOf run number states) = 1) :
    ∃ o, s.outputs.find (run, number) = some o ∧ o.isOf run number states = true := by
  have hpos : 0 < s.outputs.rows.countP (OutputRow.isOf run number states) := by
    unfold Table.count at h
    omega
  obtain ⟨o, ho, hof⟩ := List.countP_pos_iff.mp hpos
  have hkey : o.key = (run, number) := by
    simp only [OutputRow.isOf, Bool.and_eq_true, decide_eq_true_eq] at hof
    exact Prod.ext hof.1.1 hof.1.2
  exact ⟨o, Table.find_eq_some.mpr ⟨ho, hkey⟩, hof⟩

/-- **A runner failure can be repeated**: the second call finds the first. -/
theorem completeRunnerFailure_repeats
    (h : s.completeRunnerFailure run number now reason mayHaveStarted = .ok s') :
    s'.completeRunnerFailure run number now reason mayHaveStarted = .ok s' := by
  unfold completeRunnerFailure at h
  dsimp only at h
  split at h
  · split at h <;> cases h
  next duration hduration =>
  split at h
  · next hall =>
    simp only [Bool.and_eq_true, decide_eq_true_eq] at hall
    obtain ⟨o, ho, hopen⟩ := find_output_of_count hall.1.1
    obtain ⟨a, ha, hactive⟩ := find_of_attemptActive (attemptActive_of_count hall.1.2)
    obtain ⟨r, hr, hlive⟩ := exists_of_count_run hall.2
    split at h
    · cases h
    -- the event and the removal of the job concern none of the tables
    cases h
    have hquiet := @quiet_applyRunnerFailure s run number now duration reason mayHaveStarted
    refine completeRunnerFailure_of_quiet (hquiet.congr (.trans {} (sameRuns_softRemove ..))) ?_
    rw [runnerFailureCommitted_congr (.trans {} (sameRuns_softRemove ..))]
    exact committed_applyRunnerFailure ha hactive hr hlive ho hopen
  · split at h
    · next hcommitted =>
      cases h
      exact completeRunnerFailure_of_quiet quiet_applyRunnerFailure hcommitted
    · cases h

/-- The same runner failure has ended the attempt and the run, at whatever time; the artifact is
missing, or would be given up now. -/
def runnerFailureNoted (s : Store) (run : Uuid) (number : Nat) (reason : String)
    (mayHaveStarted : Bool) : Prop :=
  ∃ a r o, s.attempts.find (run, number) = some a ∧ s.runs.find run = some r ∧
    s.outputs.find (run, number) = some o ∧
    a.state = (runnerFailureStates mayHaveStarted).1 ∧
    a.resultClass = some (runnerFailureStates mayHaveStarted).2.2 ∧ a.errorMessage = some reason ∧
    r.state = (runnerFailureStates mayHaveStarted).2.1 ∧ r.reason = some reason ∧
    (o.state = .missing ∨ o.isOpen = true)

/-- The writes of a runner failure for an inactive attempt add up to the recorded failure if it has
ended the run before. -/
theorem runnerFailureCommitted_apply_iff {a : AttemptRow} {r : RunRow}
    (ha : s.attempts.find (run, number) = some a) (hinactive : a.isActiveOf run number = false)
    (hr : s.runs.find run = some r)
    (hended : a.resultClass = some (runnerFailureStates mayHaveStarted).2.2 →
      r.state.isLive = false) :
    (s.applyRunnerFailure run number now duration reason mayHaveStarted).runnerFailureCommitted
        run number reason mayHaveStarted = true ↔
      s.runnerFailureNoted run number reason mayHaveStarted := by
  have hattempt : (s.applyRunnerFailure run number now duration reason mayHaveStarted).attempts.find
      (run, number) = some a := by
    unfold applyRunnerFailure updateOutputs updateAttempts updateRuns deleteRetryIntents
    dsimp only
    rw [Table.find_update, ha, Option.map_some, if_neg (by simp [hinactive])]
  have hrun : (s.applyRunnerFailure run number now duration reason mayHaveStarted).runs.find run
      = some (if decide (r.id = run) && r.state.isLive then
          r.finishCandidate (runnerFailureStates mayHaveStarted).2.1 reason now else r) := by
    unfold applyRunnerFailure updateOutputs updateAttempts updateRuns deleteRetryIntents
    dsimp only
    rw [Table.find_update, hr, Option.map_some]
  have houtput : (s.applyRunnerFailure run number now duration reason mayHaveStarted).outputs.find
      (run, number) = (s.outputs.find (run, number)).map (fun o =>
        if o.isOf run number [.pending, .active] then o.lose now else o) := by
    unfold applyRunnerFailure updateOutputs updateAttempts updateRuns deleteRetryIntents
    dsimp only
    rw [Table.find_update]
  have hintents : (s.applyRunnerFailure run number now duration reason
      mayHaveStarted).retryIntents.exist (fun i => i.runId = run) = false := by
    simp [applyRunnerFailure, deleteRetryIntents, Table.exist, Table.rows_delete]
  unfold runnerFailureCommitted runnerFailureNoted
  -- the attempt is closed, so its row is as it was; with its class the run has ended as well
  by_cases hclass : a.resultClass = some (runnerFailureStates mayHaveStarted).2.2
  · rw [if_neg (by simp [hended hclass])] at hrun
    simp only [hattempt, hrun, houtput, hintents, ha, hr]
    cases ho : s.outputs.find (run, number) with
    | none => simp
    | some o =>
      have hkey : o.key = (run, number) := Table.key_of_find ho
      have hid : o.runId = run := congrArg Prod.fst hkey
      have hnumber : o.attemptNumber = number := congrArg Prod.snd hkey
      have hof : o.isOf run number [.pending, .active] = o.isOpen := by
        simp [OutputRow.isOf, hid, hnumber, OutputRow.isOpen]
      have hmissing : (if o.isOf run number [.pending, .active] then o.lose now else o).state
          = .missing ↔ o.state = .missing ∨ o.isOpen = true := by
        rw [hof]
        cases o.isOpen with
        | true => simp [OutputRow.lose, OutputRow.markMissing]
        | false => simp
      simp [hmissing, and_assoc]
  · simp only [hattempt, ha]
    refine iff_of_false ?_ ?_
    · split
      · next heq _ _ =>
        cases heq
        simp [hclass]
      · simp
    · rintro ⟨a', _, _, ha', -, -, -, hclass', -⟩
      cases ha'
      exact hclass hclass'

theorem completeRunnerFailure_of_inactive (horderly : (s.view run).Orderly) (howned : s.Owned)
    (hinactive : s.attemptActive (run, number) = false) :
    (∃ s', s.completeRunnerFailure run number now reason mayHaveStarted = .ok s') ↔
      s.runnerFailureNoted run number reason mayHaveStarted := by
  have hcount := count_ne_of_inactive hinactive
  unfold completeRunnerFailure
  dsimp only
  cases ha : s.attempts.find (run, number) with
  | none =>
    refine iff_of_false ?_ ?_
    · dsimp only
      split <;> simp
    · rintro ⟨a, _, _, ha', -⟩
      rw [ha] at ha'
      cases ha'
  | some a =>
    have hkey : a.key = (run, number) := Table.key_of_find ha
    have hmem : a ∈ (s.view run).attempts :=
      mem_view_attempts.mpr ⟨Table.mem_of_find ha, congrArg Prod.fst hkey⟩
    obtain ⟨r, hr⟩ : ∃ r, s.runs.find run = some r := by
      cases hr : s.runs.find run with
      | some r => exact ⟨r, rfl⟩
      | none =>
        rw [howned run hr] at hmem
        cases hmem
    have hclosed : a.isActiveOf run number = false := by
      rw [attemptActive, ha, Option.any_some] at hinactive
      simp [AttemptRow.isActiveOf, hinactive]
    have hended : a.resultClass = some (runnerFailureStates mayHaveStarted).2.2 →
        r.state.isLive = false := fun hclass =>
      RunRow.not_live_of_terminal ((horderly r hr).failure a hmem ⟨mayHaveStarted, hclass⟩).1
    dsimp only
    generalize (if mayHaveStarted = true then max 0 (now - a.runningAt.getD a.startedAt) else 0)
      = duration
    have hiff := @runnerFailureCommitted_apply_iff s run number now duration reason mayHaveStarted
      a r ha hclosed hr hended
    rw [if_neg (by simp [hcount]), ← hiff]
    split
    · next hcommitted => simp [hcommitted]
    · next hcommitted => simp [hcommitted]

end RunnerFailure

end Calls

end Store

/-! ## What repeats, and what passes for it -/

namespace CompletionCall

/-- The call, once committed, can be repeated: it is no failure before execution, and does not
retry a run that is finished already. -/
def Repeatable (s : Store) : CompletionCall → Prop
  | .attempt c => ∀ r, s.attemptActive (c.runId, c.attemptNumber) = true → c.retry.isSome = true →
      s.runs.find c.runId = some r → r.finishedAt = none
  | .preExecutionFailure _ _ _ _ _ => False
  | .runnerFailure _ _ _ _ _ => True

/-- What is recorded of the attempt does not pass for the call without being it: an output
preparation failure does not read as the completion, and the same runner failure was not recorded
at another time. -/
def Distinguished (s : Store) : CompletionCall → Prop
  | .attempt c => ∀ a, s.attempts.find (c.runId, c.attemptNumber) = some a →
      a.resultClass = some "output_preparation_failed" → s.recognises c = false
  | .preExecutionFailure _ _ _ _ _ => True
  | .runnerFailure run number now reason mayHaveStarted => ∀ a,
      s.attempts.find (run, number) = some a →
      s.runnerFailureNoted run number reason mayHaveStarted →
      a.finishedAt = some now ∧ a.duration
        = some (if mayHaveStarted then max 0 (now - a.runningAt.getD a.startedAt) else 0)

end CompletionCall

namespace Store

theorem repeats_iff {s s' : Store} (howned : s.Owned) (call : CompletionCall)
    (h : s.apply call.op = .ok s') : s'.apply call.op = .ok s' ↔ call.Repeatable s := by
  cases call with
  | attempt c =>
    have h : s.completeAttempt c = .ok s' := h
    show s'.completeAttempt c = .ok s' ↔ _
    cases hactive : s.attemptActive (c.runId, c.attemptNumber) with
    | false =>
      -- nothing was written, so the second call sees what the first saw
      obtain ⟨-, rfl⟩ := (completeAttempt_of_inactive hactive).mp h
      exact iff_of_true h (fun _ h => by rw [hactive] at h; cases h)
    | true =>
      obtain ⟨r, hr⟩ := howned.exists_run (hasActive_of_attemptActive hactive)
      rw [completeAttempt_of_inactive (completeAttempt_closes h), and_iff_left rfl,
        completeAttempt_recognised hr hactive h]
      constructor
      · intro hcondition r' _ hretry hr'
        cases hr.symm.trans hr'
        exact hcondition hretry
      · exact fun hcondition hretry => hcondition r hactive hretry hr
  | preExecutionFailure run number output now reason =>
    obtain ⟨e, herror⟩ := @completePreExecutionFailure_of_inactive s' run number output now reason
      (completePreExecutionFailure_closes h)
    exact iff_of_false (fun hrepeats => by cases hrepeats.symm.trans herror) id
  | runnerFailure run number now reason mayHaveStarted =>
    exact iff_of_true (completeRunnerFailure_repeats h) trivial

theorem not_recorded_of_preparationFailure {s : Store} {c : AttemptCompletion} {a : AttemptRow}
    (ha : s.attempts.find (c.runId, c.attemptNumber) = some a)
    (hclass : a.resultClass = some "output_preparation_failed") : ¬ s.Recorded (.attempt c) := by
  rintro ⟨a', r, ha', -, hclose, -⟩
  cases ha.symm.trans ha'
  have hwritten : a.resultClass = some c.state.text := by
    rw [← hclose]
    simp only [CompletionCall.close]
    split
    · next hstate => simp [AttemptRow.close, hstate, CompletionState.text]
    · rfl
  rw [hclass] at hwritten
  revert hwritten
  cases c.state <;> simp [CompletionState.text, terminationUnconfirmed]

/-- What passes for a repeated completion belongs to a closed attempt and its run. -/
theorem recognises_rows {s : Store} {c : AttemptCompletion} (h : s.recognises c = true) :
    ∃ a r, s.attempts.find (c.runId, c.attemptNumber) = some a ∧ s.runs.find c.runId = some r ∧
      a.state = c.state.attemptState := by
  unfold recognises terminationCompletionCommitted completionAlreadyCommitted at h
  cases ha : s.attempts.find (c.runId, c.attemptNumber) with
  | none => simp [ha] at h
  | some a =>
    cases hr : s.runs.find c.runId with
    | none => simp [ha, hr] at h
    | some r =>
      refine ⟨a, r, rfl, rfl, ?_⟩
      rw [ha, hr] at h
      split at h
      · next hstate =>
        simp only [Bool.and_eq_true, decide_eq_true_eq] at h
        rw [h.2.1.1.1.1, hstate]
        rfl
      · simp only [Bool.and_eq_true, decide_eq_true_eq] at h
        tauto

theorem refuses_iff {s : Store} (horderly : ∀ id, (s.view id).Orderly) (howned : s.Owned)
    (call : CompletionCall) :
    (s.attemptActive call.key = false → ¬ s.Recorded call → ∃ e, s.apply call.op = .error e) ↔
      call.Distinguished s := by
  cases call with
  | attempt c =>
    constructor
    -- the comparison leaves out the class, so a preparation failure would pass for the call
    · intro hrefuses a ha hclass
      by_contra hrecognised
      have hrecognised : s.recognises c = true := by simpa using hrecognised
      obtain ⟨a', r, ha', -, hstate⟩ := recognises_rows hrecognised
      cases ha.symm.trans ha'
      have hinactive : s.attemptActive (c.runId, c.attemptNumber) = false := by
        rw [attemptActive, ha, Option.any_some, hstate]
        cases c.state <;> rfl
      obtain ⟨e, herror⟩ := hrefuses hinactive (not_recorded_of_preparationFailure ha hclass)
      cases ((completeAttempt_of_inactive hinactive).mpr ⟨hrecognised, rfl⟩).symm.trans herror
    · intro hdistinguished hinactive hnot
      cases hresult : s.completeAttempt c with
      | error e => exact ⟨e, hresult⟩
      | ok s' =>
        obtain ⟨hrecognised, -⟩ := (completeAttempt_of_inactive hinactive).mp hresult
        obtain ⟨a, r, ha, hr, -⟩ := recognises_rows hrecognised
        refine absurd (recorded_of_recognises ha hr (horderly c.runId r hr) hrecognised ?_) hnot
        intro hclass
        rw [hdistinguished a ha hclass] at hrecognised
        cases hrecognised
  | preExecutionFailure run number output now reason =>
    exact iff_of_true (fun hinactive _ => completePreExecutionFailure_of_inactive hinactive) trivial
  | runnerFailure run number now reason mayHaveStarted =>
    constructor
    -- the comparison leaves out the time, so a failure at another time would be accepted
    · intro hrefuses a ha hnoted
      by_contra htimes
      have hinactive : s.attemptActive (run, number) = false := by
        obtain ⟨a', _, _, ha', -, -, hstate, -⟩ := hnoted
        rw [attemptActive, ha', Option.any_some, hstate]
        cases mayHaveStarted <;> rfl
      have hnot : ¬ s.Recorded (.runnerFailure run number now reason mayHaveStarted) := by
        rintro ⟨a', _, ha', -, hclose, -⟩
        cases ha.symm.trans ha'
        exact htimes ⟨(congrArg AttemptRow.finishedAt hclose).symm,
          (congrArg AttemptRow.duration hclose).symm⟩
      obtain ⟨e, herror⟩ := hrefuses hinactive hnot
      obtain ⟨s', hok⟩ := (@completeRunnerFailure_of_inactive s run number now reason mayHaveStarted
        (horderly run) howned hinactive).mpr hnoted
      cases hok.symm.trans herror
    · intro hdistinguished hinactive hnot
      cases hresult : s.completeRunnerFailure run number now reason mayHaveStarted with
      | error e => exact ⟨e, hresult⟩
      | ok s' =>
        have hnoted := (completeRunnerFailure_of_inactive (horderly run) howned hinactive).mp
          ⟨s', hresult⟩
        obtain ⟨a, r, o, ha, hr, ho, hstate, hclass, hmessage, hended, hreason, -⟩ := id hnoted
        obtain ⟨hfinished, hduration⟩ := hdistinguished a ha hnoted
        refine absurd ⟨a, r, ha, hr, ?_, hended.symm, hreason.symm, rfl, ?_⟩ hnot
        · simp only [CompletionCall.close, AttemptRow.close]
          rw [← hstate, ← hfinished, ← hduration, ← hclass, ← hmessage]
        · intro row hrow
          cases hrow

/-- **When completion is replay-safe.** In every reachable state, a call that was committed can be
repeated at once, with success and without a change, exactly if it is `Repeatable`; and a call for
an attempt that is not active, and that is not recorded as the call writes it, fails exactly if
nothing passes for it. -/
theorem completion_replay_iff {s : Store} (h : Reachable anyOp s) (call : CompletionCall) :
    (∀ s', s.apply call.op = .ok s' → (s'.apply call.op = .ok s' ↔ call.Repeatable s)) ∧
      ((s.attemptActive call.key = false → ¬ s.Recorded call →
          ∃ e, s.apply call.op = .error e) ↔ call.Distinguished s) :=
  ⟨fun _ => repeats_iff h.owned call, refuses_iff h.orderly h.owned call⟩

/-- A manual run up to the admission of its first attempt. -/
def admittedRun : List Op := (retriedRun "").take 4

/-- An outcome of the admitted attempt can be reported again. -/
theorem completion_replay_iff_succeeded :
    ∃ s, Reachable anyOp s ∧ s.attemptActive (3, 1) = true ∧
      ∀ s', s.completeAttempt ⟨3, 1, 5, 5, .succeeded, some 0, none, none, "exited with 0", none⟩
          = .ok s' →
        s'.completeAttempt ⟨3, 1, 5, 5, .succeeded, some 0, none, none, "exited with 0", none⟩
          = .ok s' := by
  obtain ⟨s, hs, hactive⟩ := exists_reachable anyOp admittedRun
    (fun s => s.attemptActive (3, 1) = true) (fun _ _ _ => trivial) (by decide +kernel)
  refine ⟨s, hs, hactive, fun s' h => ?_⟩
  exact ((completion_replay_iff hs (.attempt _)).1 s' h).mpr (fun _ _ hretry => by cases hretry)

def missingExecutable : CompletionCall := .preExecutionFailure 3 1 none 5 "no such file"

/-- The output of the admitted attempt cannot be prepared. -/
def preparationFailure (now : Int) : CompletionCall := .runnerFailure 3 1 now "disk full" false

/-- The admitted attempt has failed, for the same reason and at the same time. -/
def ordinaryFailure : CompletionCall :=
  .attempt ⟨3, 1, 5, 0, .failed, none, none, none, "disk full", none⟩

/-- A failure before execution cannot be repeated: the second call finds no pending artifact. And
after an output preparation failure, the same failure at another time is accepted, as well as an
ordinary failure that was never recorded. -/
theorem failure_before_execution_not_repeatable :
    (∃ s s', Reachable anyOp s ∧ s.apply missingExecutable.op = .ok s' ∧
      s'.apply missingExecutable.op
        = .error (.conflict "admitted output artifact is not pending")) ∧
    ∃ s, Reachable anyOp s ∧ s.attemptActive (3, 1) = false ∧
      ∀ call ∈ [preparationFailure 6, ordinaryFailure],
        ¬ s.Recorded call ∧ ∃ s', s.apply call.op = .ok s' := by
  constructor
  · obtain ⟨s, hs, s', hs', _, herror, rfl⟩ := exists_reachable anyOp admittedRun
      (fun s => ∃ s', s.apply missingExecutable.op = .ok s' ∧
        ∃ e, s'.apply missingExecutable.op = .error e ∧
          e = .conflict "admitted output artifact is not pending")
      (fun _ _ _ => trivial) (by decide +kernel)
    exact ⟨s, s', hs, hs', herror⟩
  · obtain ⟨s, hs, ⟨a, ha, hstate, hfinished, hclass⟩, hcalls⟩ := exists_reachable anyOp
      (admittedRun ++ [(preparationFailure 5).op])
      (fun s => (∃ a, s.attempts.find (3, 1) = some a ∧ a.state = .failed ∧ a.finishedAt = some 5 ∧
          a.resultClass = some "output_preparation_failed") ∧
        ∀ call ∈ [preparationFailure 6, ordinaryFailure], ∃ s', s.apply call.op = .ok s' ∧ True)
      (fun _ _ _ => trivial) (by decide +kernel)
    refine ⟨s, hs, by rw [attemptActive, ha, Option.any_some, hstate]; rfl, ?_⟩
    intro call hcall
    refine ⟨?_, (hcalls call hcall).imp fun _ h => h.1⟩
    rcases List.mem_cons.mp hcall with rfl | hcall
    · rintro ⟨a', _, ha', -, hclose, -⟩
      cases ha.symm.trans ha'
      have hlater := congrArg AttemptRow.finishedAt hclose
      rw [hfinished] at hlater
      cases hlater
    · rw [List.mem_singleton.mp hcall]
      exact not_recorded_of_preparationFailure ha hclass

end Store

end Locron
