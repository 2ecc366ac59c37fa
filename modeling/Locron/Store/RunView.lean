import Locron.Store.Step

set_option autoImplicit false

/-! # The life of one run

Seen from one run, the database is the run's row and the rows of its attempts. Whatever an operation
does to the database, for each run it is one step of a small machine (`RunStep`), and invariants of
runs are proved over that machine. Its guards are those of the operations' statements: nothing that
only follows from an invariant is assumed.
-/

namespace Locron

/-- The row of a run and the rows of its attempts, in the order they were started. -/
structure RunView where
  run : Option RunRow
  attempts : List AttemptRow

/-- The part of the database that belongs to one run. -/
def Store.view (s : Store) (id : Uuid) : RunView :=
  ⟨s.runs.find id, s.attempts.rows.filter (fun a => a.runId = id)⟩

/-- Changes the attempt of the given number, if it is active. -/
def onActive (run : Uuid) (number : Nat) (f : AttemptRow → AttemptRow)
    (attempts : List AttemptRow) : List AttemptRow :=
  attempts.map (fun a => if a.isActiveOf run number then f a else a)

def HasActive (run : Uuid) (number : Nat) (attempts : List AttemptRow) : Prop :=
  ∃ a ∈ attempts, a.isActiveOf run number = true

def nextNumber (attempts : List AttemptRow) : Nat :=
  (attempts.map (fun a => a.number)).foldl max 0 + 1

/-- A row as it is inserted: queued, or terminal at once; only a queued run that is no catch-up
member can be a candidate. -/
structure RunRow.IsNew (r : RunRow) : Prop where
  no_request : r.cancellationRequestedAt = none ∧ r.cancellationReason = none
  state : (r.state = .queued ∧ r.reason = none ∧ r.finishedAt = none) ∨
    (r.state.isTerminal = true ∧ r.finishedAt.isSome = true)
  candidate : r.replacementCandidate = true → r.state = .queued ∧ r.trigger ≠ .catchUp

/-- Which insertions, retries (by the row and the reason of the failed attempt, and by its
completion as a whole), quarantines, acknowledgements, deletions and starts (with their time) may
occur. -/
structure Permits where
  insert : RunRow → Prop
  retry : RunRow → String → Prop
  quarantine : RunRow → Prop
  acknowledge : RunRow → Prop
  delete : RunRow → Prop
  start : RunRow → Int → Prop := fun _ _ => True
  plan : RunRow → AttemptCompletion → Prop := fun _ _ => True

namespace Permits

/-- All of them. -/
def all : Permits :=
  ⟨fun _ => True, fun _ _ => True, fun _ => True, fun _ => True, fun _ => True, fun _ _ => True,
    fun _ _ => True⟩

/-- A restriction of the retries alone. -/
def ofRetry (mayRetry : RunRow → String → Prop) : Permits :=
  ⟨fun _ => True, mayRetry, fun _ => True, fun _ => True, fun _ => True, fun _ _ => True,
    fun _ _ => True⟩

end Permits

/-- What one materialized occurrence, or a manual request, does to a run of its job: it is inserted,
gives way to a replacement, or is asked to stop for it. -/
inductive OverlapStep (permits : Permits) (id : Uuid) : RunView → RunView → Prop
  | insert (r : RunRow) (hid : r.id = id) (hnew : r.IsNew) (hmay : permits.insert r) :
      OverlapStep permits id ⟨none, []⟩ ⟨some r, []⟩
  | supersede {attempts} (r : RunRow) (now : Int) (hpending : r.state.isPending = true) :
      OverlapStep permits id ⟨some r, attempts⟩ ⟨some (r.supersede now), attempts⟩
  | requestReplacement {attempts} (r : RunRow) (now : Int) (hlive : r.state.isLive = true) :
      OverlapStep permits id ⟨some r, attempts⟩ ⟨some (r.requestReplacement now), attempts⟩

/-- What one operation does to a run. A batch of occurrences is one operation, so its steps form a
sequence. -/
inductive RunStep (permits : Permits) (id : Uuid) : RunView → RunView → Prop
  | keep (v : RunView) : RunStep permits id v v
  | overlap {v v' : RunView} (h : Relation.ReflTransGen (OverlapStep permits id) v v') :
      RunStep permits id v v'
  | start {attempts} (r : RunRow) (lifetime : Uuid) (now : Int)
    (hpending : r.state.isPending = true)
      (hrequest : r.cancellationRequestedAt = none) (hmay : permits.start r now) :
      RunStep permits id ⟨some r, attempts⟩ ⟨some { r with state := .starting },
        attempts ++ [.start id (nextNumber attempts) lifetime now]⟩
  | ready {attempts} (r : RunRow) (number : Nat) (now : Int) (executable : Option String)
      (hstate : r.state = .starting) (hcancel : r.cancellationReason = none)
      (hattempt : ∃ a ∈ attempts, a.isStartingOf id number = true) :
      RunStep permits id ⟨some r, attempts⟩ ⟨some { r with state := .running },
        attempts.map (fun a => if a.isStartingOf id number then a.markRunning now executable
          else a)⟩
  | cancelBeforeSpawn {attempts} (r : RunRow) (number : Nat) (now : Int) (reason : String)
      (hlive : r.state.isLive = true) (hcancel : r.cancellationReason.isSome = true)
      (hactive : HasActive id number attempts) :
      RunStep permits id ⟨some r, attempts⟩ ⟨some (r.finishCandidate .cancelled reason now),
        onActive id number (AttemptRow.close .cancelled now 0 "cancelled" reason) attempts⟩
  | complete {attempts} (r : RunRow) (c : AttemptCompletion)
      (hstate : c.state ≠ .terminationUnconfirmed)
      (hactive : HasActive id c.attemptNumber attempts) :
      RunStep permits id ⟨some r, attempts⟩
        ⟨some (r.finish c.state.runState c.reason c.now),
          onActive id c.attemptNumber (AttemptRow.complete c) attempts⟩
  | retry {attempts} (r : RunRow) (c : AttemptCompletion) (plan : RetryPlan)
      (hstate : c.state = .failed ∨ c.state = .timedOut)
      (hactive : HasActive id c.attemptNumber attempts) (hmay : permits.retry r c.reason)
      (hplan : c.retry = some plan) (hcompletion : permits.plan r c) :
      RunStep permits id ⟨some r, attempts⟩ ⟨some (r.retry plan.notBefore c.reason),
        onActive id c.attemptNumber (AttemptRow.complete c) attempts⟩
  | quarantine {attempts} (r : RunRow) (number : Nat) (now duration : Int) (reason : String)
      (hlive : r.state.isLive = true) (hactive : HasActive id number attempts)
      (hmay : permits.quarantine r) :
      RunStep permits id ⟨some r, attempts⟩ ⟨some r.quarantine,
        onActive id number
          (AttemptRow.close .interruptedUnknown now duration terminationUnconfirmed reason)
            attempts⟩
  | failCandidate {attempts} (r : RunRow) (now : Int) (hflag : r.replacementCandidate = true)
      (hpending : r.state.isPending = true) :
      RunStep permits id ⟨some r, attempts⟩ ⟨some (r.finishCandidate .failed
        "replacement failed: predecessor termination unconfirmed" now), attempts⟩
  | preExecution {attempts} (r : RunRow) (number : Nat) (now : Int) (reason : String)
      (hactive : HasActive id number attempts) :
      RunStep permits id ⟨some r, attempts⟩
        ⟨some (if r.state.isLive then r.finish .failed reason now else r),
          onActive id number (AttemptRow.close .failed now 0 "failed" reason) attempts⟩
  | runnerFailure {attempts} (r r' : RunRow) (attempts' : List AttemptRow) (number : Nat)
      (now duration : Int) (reason : String) (mayHaveStarted : Bool)
      (hrun : r' = if r.state.isLive then
        r.finishCandidate (Store.runnerFailureStates mayHaveStarted).2.1 reason now else r)
      (hattempts : attempts' = onActive id number
        (AttemptRow.close (Store.runnerFailureStates mayHaveStarted).1 now duration
          (Store.runnerFailureStates mayHaveStarted).2.2 reason) attempts)
      (happlied : (r.state.isLive = true ∧ HasActive id number attempts) ∨
        (r'.state = (Store.runnerFailureStates mayHaveStarted).2.1 ∧
          ∃ a ∈ attempts', a.number = number ∧
            a.resultClass = some (Store.runnerFailureStates mayHaveStarted).2.2)) :
      RunStep permits id ⟨some r, attempts⟩ ⟨some r', attempts'⟩
  | requestCancellation {attempts} (r : RunRow) (now : Int) (hlive : r.state.isLive = true) :
      RunStep permits id ⟨some r, attempts⟩ ⟨some (r.requestCancellation now), attempts⟩
  | cancelPending {attempts} (r : RunRow) (now : Int) (hpending : r.state.isPending = true) :
      RunStep permits id ⟨some r, attempts⟩ ⟨some (r.cancelPending now), attempts⟩
  | acknowledge {attempts} (r : RunRow) (now : Int) (hquarantined : r.quarantined = true)
      (hmay : permits.acknowledge r) :
      RunStep permits id ⟨some r, attempts⟩ ⟨some (r.finishCandidate .interruptedUnknown
        "termination unconfirmed; risk acknowledged by operator" now), attempts⟩
  | interrupt (v : RunView) (now : Int) :
      RunStep permits id v ⟨v.run.map (fun r => if r.stale then r.interrupt now else r),
        v.attempts.map (fun a => if a.state.isActive then a.interrupt now else a)⟩
  | delete {attempts} (r : RunRow) (hterminal : r.state.isTerminal = true)
      (hmay : permits.delete r) :
      RunStep permits id ⟨some r, attempts⟩ ⟨none, []⟩

/-! ## Making room -/

section OverlapStep

variable {permits : Permits} {id : Uuid} {v v' : RunView} {P : RunRow → Prop}
  (h : Relation.ReflTransGen (OverlapStep permits id) v v')

include h

/-- What making room keeps of a row. -/
theorem OverlapStep.keeps
    (hsupersede : ∀ r now, r.state.isPending = true → P r → P (r.supersede now))
    (hrequest : ∀ r now, P r → P (r.requestReplacement now)) {r : RunRow} (hr : v.run = some r)
    (hP : P r) : ∃ r', v'.run = some r' ∧ P r' := by
  induction h with
  | refl => exact ⟨r, hr, hP⟩
  | tail _ hlast ih =>
    obtain ⟨r₁, hr₁, hP₁⟩ := ih
    cases hlast with
    | insert => cases hr₁
    | supersede r₀ now hpending =>
      obtain rfl : r₀ = r₁ := Option.some.inj hr₁
      exact ⟨_, rfl, hsupersede r₀ now hpending hP₁⟩
    | requestReplacement r₀ now =>
      obtain rfl : r₀ = r₁ := Option.some.inj hr₁
      exact ⟨_, rfl, hrequest r₀ now hP₁⟩

/-- What making room gives to no row, the row had before. -/
theorem OverlapStep.had (hnew : ∀ r : RunRow, r.IsNew → ¬ P r)
    (hsupersede : ∀ (r : RunRow) (now : Int), ¬ P (r.supersede now))
    (hrequest : ∀ (r : RunRow) (now : Int), P (r.requestReplacement now) → P r) {r' : RunRow}
    (hr' : v'.run = some r') (hP : P r') : ∃ r, v.run = some r ∧ P r := by
  induction h generalizing r' with
  | refl => exact ⟨r', hr', hP⟩
  | tail _ hlast ih =>
    cases hlast with
    | insert r hid hrow =>
      cases hr'
      exact absurd hP (hnew _ hrow)
    | supersede r now =>
      cases hr'
      exact absurd hP (hsupersede r now)
    | requestReplacement r now =>
      cases hr'
      exact ih rfl (hrequest r now hP)

end OverlapStep

/-! ## Attempts and their run -/

/-- Without a row there are no attempts. -/
def RunView.Owned (v : RunView) : Prop := v.run = none → v.attempts = []

theorem OverlapStep.owned {permits : Permits} {id : Uuid} {v v' : RunView}
    (h : Relation.ReflTransGen (OverlapStep permits id) v v') (hv : v.Owned) : v'.Owned := by
  induction h with
  | refl => exact hv
  | tail _ hlast ih => cases hlast <;> simp [RunView.Owned]

theorem RunStep.owned {permits : Permits} {id : Uuid} {v v' : RunView}
    (h : RunStep permits id v v') (hv : v.Owned) : v'.Owned := by
  cases h with
  | keep => exact hv
  | overlap h => exact OverlapStep.owned h hv
  | interrupt _ now =>
    intro hnone
    simp only [hv (Option.map_eq_none_iff.mp hnone), List.map_nil]
  | delete r hterminal hmay => exact fun _ => rfl
  | _ => simp [RunView.Owned]

/-! ## What the statements do to a view -/

namespace Store

variable (s : Store) (id : Uuid)

@[simp] theorem view_event (at_ : Int) (kind : String) (job run : Option Uuid) (details : String) :
    (s.event at_ kind job run details).view id = s.view id := rfl

@[simp] theorem view_updateOutputs (p : OutputRow → Bool) (f : OutputRow → OutputRow)
    (hf : ∀ r, (f r).key = r.key) : (s.updateOutputs p f hf).view id = s.view id := rfl

@[simp] theorem view_deleteRetryIntents (p : RetryIntentRow → Bool) :
    (s.deleteRetryIntents p).view id = s.view id := rfl

@[simp] theorem view_putRetryIntent (row : RetryIntentRow) :
    (s.putRetryIntent row).view id = s.view id := rfl

theorem view_updateRuns (p : RunRow → Bool) (f : RunRow → RunRow) (hf : ∀ r, (f r).id = r.id) :
    (s.updateRuns p f hf).view id
      = { s.view id with run := (s.view id).run.map (fun r => if p r then f r else r) } := by
  simp only [view, updateRuns, Table.find_update]

theorem view_updateAttempts (p : AttemptRow → Bool) (f : AttemptRow → AttemptRow)
    (hf : ∀ r, (f r).key = r.key) :
    (s.updateAttempts p f hf).view id = { s.view id with
      attempts := (s.view id).attempts.map (fun a => if p a then f a else a) } := by
  have hkey : ∀ a : AttemptRow, (if p a then f a else a).runId = a.runId := by
    intro a
    split
    · exact congrArg Prod.fst (hf a)
    · rfl
  simp only [view, updateAttempts, Table.rows_update, List.filter_map]
  congr 2
  apply List.filter_congr
  intro a _
  simp only [Function.comp_apply, hkey]

/-- The tables of runs, attempts and artifacts are as they were. -/
structure SameRuns (s s' : Store) : Prop where
  runs : s'.runs = s.runs := by rfl
  attempts : s'.attempts = s.attempts := by rfl
  outputs : s'.outputs = s.outputs := by rfl
  retryIntents : s'.retryIntents = s.retryIntents := by rfl

theorem SameRuns.trans {s s' s'' : Store} (h : SameRuns s s') (h' : SameRuns s' s'') :
    SameRuns s s'' :=
  ⟨h'.runs.trans h.runs, h'.attempts.trans h.attempts, h'.outputs.trans h.outputs,
    h'.retryIntents.trans h.retryIntents⟩

theorem SameRuns.view {s s' : Store} (h : SameRuns s s') (id : Uuid) : s'.view id = s.view id := by
  unfold Store.view
  rw [h.runs, h.attempts]

/-- Soft removal concerns the job only, and notes it. -/
theorem softRemove_eq (run : Uuid) (now : Int) : ∃ jobs events,
    s.softRemoveAfterOneTimeCompletion run now = { s with jobs := jobs, events := events } := by
  unfold softRemoveAfterOneTimeCompletion
  split
  · exact ⟨s.jobs, s.events, rfl⟩
  split
  · exact ⟨s.jobs, s.events, rfl⟩
  · dsimp only
    split_ifs <;> exact ⟨_, _, rfl⟩

theorem sameRuns_softRemove (run : Uuid) (now : Int) :
    SameRuns s (s.softRemoveAfterOneTimeCompletion run now) := by
  obtain ⟨jobs, events, heq⟩ := s.softRemove_eq run now
  rw [heq]
  exact {}

@[simp] theorem view_softRemove (run : Uuid) (now : Int) :
    (s.softRemoveAfterOneTimeCompletion run now).view id = s.view id :=
  (s.sameRuns_softRemove run now).view id

theorem map_attempts_eq_self {p : AttemptRow → Bool} {f : AttemptRow → AttemptRow} {id : Uuid}
    (h : ∀ a : AttemptRow, a.runId = id → p a = false) :
    (s.view id).attempts.map (fun a => if p a then f a else a) = (s.view id).attempts := by
  conv_rhs => rw [← List.map_id (s.view id).attempts]
  apply List.map_congr_left
  intro a ha
  have hid : a.runId = id := by simpa using (List.mem_filter.mp ha).2
  simp [h a hid]

end Store

end Locron
