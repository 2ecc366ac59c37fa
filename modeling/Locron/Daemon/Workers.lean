import Locron.Daemon.Task
import Locron.Lib.Runs

set_option autoImplicit false

/-! # The tasks of a daemon and the store

All tasks of a daemon lifetime, with the store they share. The commands and the other parts of the
daemon commit operations in between; they start no attempt and leave the artifacts of active
attempts alone. While the daemon is not asked to stop, every active attempt belongs to a task that
has not ended (`Workers.active_attempt_attended`): a completion conflicts only with an attempt that
is no longer active, so that the task may well end then.
-/

namespace Locron

/-- A task. `definition` is what a completion has read, once it has recorded the output and until it
has recorded the outcome: the two are transactions of their own. -/
structure Worker where
  phase : TaskPhase
  definition : Option JobDefinition

/-- The database, the tasks that were spawned, and the request to stop. -/
structure Workers where
  store : Store
  tasks : Uuid × Nat → Option Worker
  stopping : Bool

/-- The actions: operations of the others, admission, the request to stop, and the progress of the
task of one attempt. The parse error is the text for a snapshot that is no definition. -/
inductive WorkerAction (Target : Type) where
  | commit (op : Op)
  | admitBatch (env : AdmitEnv Target) (prepared : Uuid → Option Snapshot) (lifetime : Uuid)
      (capacity : Nat)
  | stop
  | observeStop (key : Uuid × Nat)
  | executed (key : Uuid × Nat) (result : Except RunnerError RunnerOutcome) (completedAt : Int)
  | fault (key : Uuid × Nat) (error : String)
  | markRunning (key : Uuid × Nat) (now : Int) (executable : Option String)
  | finalizeOutput (key : Uuid × Nat) (parseError : String)
  | completeAttempt (key : Uuid × Nat)
  | completeRunnerFailure (key : Uuid × Nat)

namespace Workers

variable {Target : Type}

/-- The task takes notice of an event; the store is as the event left it. -/
def notify (config : TaskConfig) (m : Workers) (store : Store) (key : Uuid × Nat)
    (event : TaskEvent) : Option Workers :=
  match m.tasks key with
  | none => none
  | some w =>
    (AttemptTask.step config w.phase event).map (fun phase =>
      ⟨store, Function.update m.tasks key (some ⟨phase, none⟩), m.stopping⟩)

/-- The answer to a call that the database fails. -/
def faultEvent (error : String) : TaskPhase → Option TaskEvent
  | .marking _ => some (.marked (.error error))
  | .completing _ _ _ _ => some (.completed (.transient error))
  | .fallingBack _ _ | .failing _ _ _ _ _ => some (.failureCompleted (.transient error))
  | .executing | .ended => none

/-- Records the start of an attempt. -/
def markRunning (config : TaskConfig) (m : Workers) (key : Uuid × Nat) (now : Int)
    (executable : Option String) : Option Workers :=
  match m.store.markAttemptRunning key.1 key.2 now executable with
  | .error error => m.notify config m.store key (.marked (.error error.text))
  | .ok (decision, s) => m.notify config s key (.marked (.ok (decision = .ready)))

/-- The first half of a completion: reads the run and records its output. -/
def finalizeOutput (config : TaskConfig) (m : Workers) (key : Uuid × Nat) (parseError : String) :
    Option Workers :=
  match m.tasks key with
  | some ⟨.completing outcome completedAt first delay, none⟩ =>
    match m.store.runs.find key.1 with
    | none => m.notify config m.store key
        (.completed (.transient (StoreError.notFound (toString key.1)).text))
    | some r =>
      match r.snapshot.definition with
      | none => m.notify config m.store key (.completed (.transient parseError))
      | some definition =>
        match m.store.reconcileOutputFinalized (outcome.record key) completedAt with
        | .error error => m.notify config m.store key (.completed (mapCompletionError error))
        | .ok s => some ⟨s, Function.update m.tasks key
            (some ⟨.completing outcome completedAt first delay, some definition⟩), m.stopping⟩
  | _ => none

/-- The second half of a completion: records the outcome. -/
def completeAttempt (config : TaskConfig) (m : Workers) (key : Uuid × Nat) : Option Workers :=
  match m.tasks key with
  | some ⟨.completing outcome completedAt _ _, some definition⟩ =>
    match m.store.completeAttempt
        (definition.completion key.1 key.2 outcome.toExecutionOutcome completedAt) with
    | .error error => m.notify config m.store key (.completed (mapCompletionError error))
    | .ok s => m.notify config s key (.completed .ok)
  | _ => none

def recordFailure (config : TaskConfig) (m : Workers) (key : Uuid × Nat) (completedAt : Int)
    (reason : String) (kind : RunnerFailureKind) : Option Workers :=
  match m.store.completeRunnerFailure key.1 key.2 completedAt reason
      (kind = .executionMayHaveStarted) with
  | .error error => m.notify config m.store key (.failureCompleted (mapCompletionError error))
  | .ok s => m.notify config s key (.failureCompleted .ok)

/-- The call of a task whose completion was refused, or whose runner failed. -/
def completeRunnerFailure (config : TaskConfig) (m : Workers) (key : Uuid × Nat) :
    Option Workers :=
  match m.tasks key with
  | some ⟨.fallingBack reason completedAt, _⟩ =>
    m.recordFailure config key completedAt reason .executionMayHaveStarted
  | some ⟨.failing kind reason completedAt _ _, _⟩ =>
    m.recordFailure config key completedAt reason kind
  | _ => none

/-- The tasks after admission: one for every attempt that was handed over. -/
def spawn (config : TaskConfig) (tasks : Uuid × Nat → Option Worker)
    (result : Except String (List (AdmittedAttempt Target))) (key : Uuid × Nat) : Option Worker :=
  match result with
  | .error _ => tasks key
  | .ok runnable =>
    if runnable.any (fun a => (a.runId, a.context.attempt) = key) then
      some ⟨AttemptTask.start config, none⟩
    else tasks key

def act (config : TaskConfig) (m : Workers) : WorkerAction Target → Option Workers
  | .commit op =>
    match m.store.apply op with
    | .error _ => none
    | .ok s => some { m with store := s }
  | .admitBatch env prepared lifetime capacity =>
    let result := env.admitBatch m.store prepared lifetime capacity
    some { m with store := result.1, tasks := spawn config m.tasks result.2 }
  | .stop => some { m with stopping := true }
  | .observeStop key => if m.stopping then m.notify config m.store key .shutdown else none
  | .executed key result completedAt => m.notify config m.store key (.executed result completedAt)
  | .fault key error =>
    ((m.tasks key).bind (fun w => faultEvent error w.phase)).bind
      (m.notify config m.store key)
  | .markRunning key now executable => m.markRunning config key now executable
  | .finalizeOutput key parseError => m.finalizeOutput config key parseError
  | .completeAttempt key => m.completeAttempt config key
  | .completeRunnerFailure key => m.completeRunnerFailure config key

/-! ## The runs -/

/-- The operations of the others. Starting and completing attempts is the business of admission and
of the tasks; recovery leaves the artifacts of active attempts alone, and only artifacts of terminal
runs are pruned. -/
def foreign (s : Store) : Op → Prop
  | .beginLifetime _ _ | .endLifetime _ _ | .admitRuns _ _ _ _ | .markAttemptRunning _ _ _ _
  | .completeAttempt _ | .completePreExecutionFailure _ _ _ _ _
  | .completeRunnerFailure _ _ _ _ _ =>
    False
  | .reconcileOutputFinalized output _ =>
    s.attemptActive (output.runId, output.attemptNumber) = false
  | .reconcileOutputMissing run number _ => s.attemptActive (run, number) = false
  | .markOutputPrunePending run _ _ =>
    ∃ r, s.runs.find run = some r ∧ r.state.isTerminal = true
  | _ => True

/-- The others keep to their operations, failed preparations can be recorded, and outcomes are those
that the runner reports. -/
def allowed (m : Workers) : WorkerAction Target → Prop
  | .commit op => foreign m.store op
  | .admitBatch env prepared lifetime capacity =>
    env.RecordsFailures m.store prepared lifetime capacity
  | .executed _ (.ok outcome) _ => outcome.Reported
  | _ => True

/-- A lifetime has begun, in any state of the database. -/
def initial (m : Workers) : Prop :=
  (∃ s lifetime now stale, Store.Reachable Store.unmarkedRetries s ∧
    s.beginLifetime lifetime now = .ok (stale, m.store)) ∧
  (∀ key, m.tasks key = none) ∧ m.stopping = false

abbrev Reaches (Target : Type) (config : TaskConfig) : Workers → Prop :=
  Runs.Reaches (@act Target config) allowed initial

end Workers

/-! ## Active attempts and their artifacts -/

/-- What the artifact of an active attempt is like in the phase of its task. No task of an active
attempt falls back, or has ended. -/
def TaskPhase.Expects (key : Uuid × Nat) (o : OutputRow) : TaskPhase → Prop
  | .marking _ | .executing | .failing _ _ _ _ _ => o.isOpen = true
  | .completing outcome _ _ _ => o.isOpen = true ∨ o.records (outcome.record key) = true
  | .fallingBack _ _ | .ended => False

def Worker.Attends (w : Worker) (s : Store) (key : Uuid × Nat) : Prop :=
  ∃ o, s.outputs.find key = some o ∧ w.phase.Expects key o

/-- Events after which the attempt may still be active. -/
def TaskEvent.Continues : TaskEvent → Prop
  | .marked (.error _) | .marked (.ok true) | .executed _ _ | .completed (.transient _)
  | .failureCompleted (.transient _) => True
  | _ => False

namespace TaskPhase

variable {config : TaskConfig} {key : Uuid × Nat} {o : OutputRow} {phase phase' : TaskPhase}
  {event : TaskEvent}

theorem Expects.state (h : phase.Expects key o) : o.isOpen = true ∨ o.state = .finalized := by
  cases phase with
  | completing outcome completedAt first delay =>
    rcases h with hopen | hrecords
    · exact Or.inl hopen
    · simp only [OutputRow.records, Bool.and_eq_true, decide_eq_true_eq] at hrecords
      exact Or.inr hrecords.1.1.1.1.1
  | fallingBack | ended => exact h.elim
  | _ => exact Or.inl h

theorem Expects.step (h : phase.Expects key o) (hevent : event.Continues)
    (hstep : AttemptTask.step config phase event = some phase') : phase'.Expects key o := by
  cases phase with
  | marking delay =>
    have hopen : o.isOpen = true := h
    cases event with
    | marked answer =>
      rcases answer with error | _ | _
      · cases hstep
        exact hopen
      · exact hevent.elim
      · cases hstep
        exact hopen
    | shutdown => exact hevent.elim
    | _ => cases hstep
  | executing =>
    have hopen : o.isOpen = true := h
    cases event with
    | executed result completedAt =>
      cases result with
      | error error =>
        cases hstep
        exact hopen
      | ok outcome =>
        cases hstep
        exact Or.inl hopen
    | _ => cases hstep
  | completing outcome completedAt first delay =>
    cases event with
    | completed answer =>
      cases answer with
      | transient error => cases first <;> cases hstep <;> exact h
      | _ => exact hevent.elim
    | shutdown => exact hevent.elim
    | _ => cases first <;> cases hstep
  | fallingBack | ended => exact h.elim
  | failing kind reason completedAt first delay =>
    have hopen : o.isOpen = true := h
    cases event with
    | failureCompleted answer =>
      cases answer with
      | transient error => cases first <;> cases hstep <;> exact hopen
      | _ => exact hevent.elim
    | shutdown => exact hevent.elim
    | _ => cases first <;> cases hstep

/-- The outcome of a completion is the one of the target, or that of the completion before. -/
theorem completing_origin {outcome : RunnerOutcome} {completedAt : Int} {first : Bool} {delay : Nat}
    (h : AttemptTask.step config phase event = some (.completing outcome completedAt first delay)) :
    event = .executed (.ok outcome) completedAt ∨
      ∃ first' delay', phase = .completing outcome completedAt first' delay' := by
  cases phase with
  | marking d =>
    cases event with
    | marked answer => rcases answer with error | _ | _ <;> cases h
    | _ => cases h
  | executing =>
    cases event with
    | executed result t =>
      cases result with
      | error error => cases h
      | ok outcome' =>
        cases h
        exact Or.inl rfl
    | _ => cases h
  | completing outcome' t f d =>
    cases event with
    | completed answer =>
      cases answer with
      | transient error =>
        cases f <;> cases h <;> exact Or.inr ⟨_, _, rfl⟩
      | _ => cases f <;> cases h
    | _ => cases f <;> cases h
  | fallingBack | ended => cases event <;> cases h
  | failing kind reason t f d =>
    cases event with
    | failureCompleted answer => cases answer <;> cases f <;> cases h
    | _ => cases f <;> cases h

end TaskPhase

namespace Store

variable {s s' : Store} {op : Op} {key : Uuid × Nat}

/-- An operation on another artifact leaves an open or finalized one alone. -/
theorem outputs_kept (howned : s.Owned) (h : s.apply op = .ok s')
    (hsettles : op.settles ≠ some key)
    (hprune : ∀ now, op ≠ .markOutputPrunePending key.1 key.2 now) {o : OutputRow}
    (ho : s.outputs.find key = some o)
    (hstate : o.isOpen = true ∨ o.state = .finalized) : s'.outputs.find key = some o := by
  have hstep : OutputStep s op key (some o) (s'.outputs.find key) := ho ▸ apply_output howned h key
  have hnot : ∀ state, o.state = state → state ≠ .pending → state ≠ .active → state ≠ .finalized →
      False := by
    rintro state rfl hpending hactive hfinalized
    rcases hstate with hopen | hfinal
    · simp [OutputRow.isOpen, hpending, hactive] at hopen
    · exact hfinalized hfinal
  generalize s'.outputs.find key = after at hstep ⊢
  cases hstep with
  | keep => rfl
  | finalize _ _ _ _ _ hop | giveUp _ _ _ _ _ hop => exact absurd hop hsettles
  | mark _ _ now hop _ _ _ => exact absurd hop (hprune now)
  | prune _ _ _ _ hprune _ _ =>
    exact (hnot _ hprune (by decide) (by decide) (by decide)).elim
  | delete _ _ _ _ hgone =>
    rcases hgone with hgone | hgone
    · exact (hnot _ hgone (by decide) (by decide) (by decide)).elim
    · exact (hnot _ hgone (by decide) (by decide) (by decide)).elim

end Store

theorem Worker.Attends.apply {w : Worker} {s s' : Store} {op : Op} {key : Uuid × Nat}
    (hw : w.Attends s key) (howned : s.Owned) (h : s.apply op = .ok s')
    (hsettles : op.settles ≠ some key)
    (hprune : ∀ now, op ≠ .markOutputPrunePending key.1 key.2 now) : w.Attends s' key := by
  obtain ⟨o, ho, hexpects⟩ := hw
  exact ⟨o, Store.outputs_kept howned h hsettles hprune ho hexpects.state, hexpects⟩

namespace Workers

/-- The invariant of a lifetime. -/
structure Attended (m : Workers) : Prop where
  reachable : Store.Reachable Store.unmarkedRetries m.store
  reported : ∀ key w outcome completedAt first delay, m.tasks key = some w →
    w.phase = .completing outcome completedAt first delay → outcome.Reported
  attended : m.stopping = true ∨ ∀ key, m.store.attemptActive key = true →
    ∃ w, m.tasks key = some w ∧ w.Attends m.store key

section Steps

variable {config : TaskConfig} {m m' : Workers} {s : Store} {key : Uuid × Nat} {event : TaskEvent}

theorem attended_initial (h : m.initial) : m.Attended := by
  obtain ⟨⟨s, lifetime, now, stale, hreachable, hbegin⟩, htasks, -⟩ := h
  refine ⟨hreachable.tail ⟨.beginLifetime lifetime now, trivial, ?_⟩, ?_, Or.inr ?_⟩
  · show (s.beginLifetime lifetime now).map Prod.snd = .ok m.store
    rw [hbegin]
    rfl
  · intro key w outcome completedAt first delay hw
    rw [htasks] at hw
    cases hw
  · intro key hactive
    rw [Store.beginLifetime_none_active hbegin] at hactive
    cases hactive

theorem notify_eq_some (h : m.notify config s key event = some m') :
    ∃ w phase, m.tasks key = some w ∧ AttemptTask.step config w.phase event = some phase ∧
      m' = ⟨s, Function.update m.tasks key (some ⟨phase, none⟩), m.stopping⟩ := by
  unfold notify at h
  split at h
  · cases h
  next w hw =>
  obtain ⟨phase, hstep, rfl⟩ := Option.map_eq_some_iff.mp h
  exact ⟨w, phase, hw, hstep, rfl⟩

/-- What a step of one task has to show: its own attempt is attended to or closed, and nothing
happens to the others. -/
theorem Attended.notify (h : m.Attended) (hnotify : m.notify config s key event = some m')
    (hreachable : Store.Reachable Store.unmarkedRetries s)
    (hothers : ∀ k, k ≠ key → s.attemptActive k = true → m.store.attemptActive k = true ∧
      ∀ w : Worker, w.Attends m.store k → w.Attends s k)
    (hown : m.stopping = true ∨ (s.attemptActive key = true → event.Continues ∧
      m.store.attemptActive key = true ∧ ∀ w : Worker, w.Attends m.store key → w.Attends s key))
    (hreported : ∀ outcome completedAt, event = .executed (.ok outcome) completedAt →
      outcome.Reported) : m'.Attended := by
  obtain ⟨w, phase, hw, hstep, rfl⟩ := notify_eq_some hnotify
  refine ⟨hreachable, ?_, ?_⟩
  · intro k w' outcome completedAt first delay hw' hphase
    dsimp only at hw'
    by_cases hk : k = key
    · subst hk
      rw [Function.update_self] at hw'
      cases hw'
      have hcompleting : phase = .completing outcome completedAt first delay := hphase
      rcases TaskPhase.completing_origin (hcompleting ▸ hstep) with hevent |
        ⟨first', delay', hbefore⟩
      · exact hreported outcome completedAt hevent
      · exact h.reported k w outcome completedAt first' delay' hw hbefore
    · rw [Function.update_of_ne hk] at hw'
      exact h.reported k w' outcome completedAt first delay hw' hphase
  · rcases h.attended with hstop | hattended
    · exact Or.inl hstop
    rcases hown with hstop | hown
    · exact Or.inl hstop
    right
    intro k hactive
    by_cases hk : k = key
    · subst hk
      obtain ⟨hcontinues, hbefore, hkeeps⟩ := hown hactive
      obtain ⟨w', hw', hattends⟩ := hattended k hbefore
      obtain rfl : w = w' := Option.some.inj (hw.symm.trans hw')
      obtain ⟨o, ho, hexpects⟩ := hkeeps w hattends
      exact ⟨_, Function.update_self .., o, ho, hexpects.step hcontinues hstep⟩
    · obtain ⟨hbefore, hkeeps⟩ := hothers k hk hactive
      obtain ⟨w', hw', hattends⟩ := hattended k hbefore
      exact ⟨w', (Function.update_of_ne hk ..).trans hw', hkeeps w' hattends⟩

theorem Attended.notify_self (h : m.Attended)
    (hnotify : m.notify config m.store key event = some m')
    (hown : m.stopping = true ∨ (m.store.attemptActive key = true → event.Continues))
    (hreported : ∀ outcome completedAt, event = .executed (.ok outcome) completedAt →
      outcome.Reported) : m'.Attended := by
  refine h.notify hnotify h.reachable (fun k _ hactive => ⟨hactive, fun _ hw => hw⟩) ?_ hreported
  rcases hown with hstop | hcontinues
  · exact Or.inl hstop
  · exact Or.inr (fun hactive => ⟨hcontinues hactive, hactive, fun _ hw => hw⟩)

/-- An operation of the task on the rows of its own attempt. -/
theorem Attended.notify_apply {op : Op} (h : m.Attended)
    (hnotify : m.notify config s key event = some m') (happly : m.store.apply op = .ok s)
    (hop : Store.unmarkedRetries m.store op)
    (hadmits : ∀ prepared lifetime now guard, op ≠ .admitRuns prepared lifetime now guard)
    (hprune : ∀ run number now, op ≠ .markOutputPrunePending run number now)
    (hsettles : ∀ k, op.settles = some k → k = key)
    (hown : s.attemptActive key = true → event.Continues ∧
      ∀ w : Worker, w.Attends m.store key → w.Attends s key)
    (hreported : ∀ outcome completedAt, event = .executed (.ok outcome) completedAt →
      outcome.Reported) : m'.Attended := by
  have howned := h.reachable.owned
  refine h.notify hnotify (h.reachable.tail ⟨op, hop, happly⟩) ?_ (Or.inr ?_) hreported
  · intro k hk hactive
    refine ⟨Store.active_of_apply howned happly hadmits hactive, fun w hw => ?_⟩
    exact hw.apply howned happly (fun hs => hk (hsettles k hs)) (fun now => hprune k.1 k.2 now)
  · intro hactive
    obtain ⟨hcontinues, hkeeps⟩ := hown hactive
    exact ⟨hcontinues, Store.active_of_apply howned happly hadmits hactive, hkeeps⟩

/-! ## The actions of a task -/

theorem mapCompletionError_cases (error : StoreError) :
    (∃ message, error = .conflict message) ∨
      ∃ text, mapCompletionError error = .transient text := by
  cases error with
  | conflict message => exact Or.inl ⟨message, rfl⟩
  | _ => exact Or.inr ⟨_, rfl⟩

theorem Attended.markRunning (h : m.Attended) {now : Int} {executable : Option String}
    (hact : m.markRunning config key now executable = some m') : m'.Attended := by
  unfold Workers.markRunning at hact
  split at hact
  · next error _ =>
    exact h.notify_self hact (Or.inr (fun _ => trivial)) (fun _ _ heq => by cases heq)
  next decision s hmark =>
  have happly : m.store.apply (.markAttemptRunning key.1 key.2 now executable) = .ok s := by
    show (m.store.markAttemptRunning key.1 key.2 now executable).map Prod.snd = .ok s
    rw [hmark]
    rfl
  refine h.notify_apply hact happly trivial (fun _ _ _ _ heq => by cases heq)
    (fun _ _ _ heq => by cases heq) (fun k hk => (Option.some.inj hk).symm) ?_
    (fun _ _ heq => by cases heq)
  intro hactive
  rcases Store.markAttemptRunning_ok hmark with ⟨rfl, houtputs⟩ | ⟨-, hclosed⟩
  · refine ⟨trivial, fun w hw => ?_⟩
    obtain ⟨o, ho, hexpects⟩ := hw
    exact ⟨o, houtputs ▸ ho, hexpects⟩
  · rw [hclosed] at hactive
    cases hactive

theorem Attended.finalizeOutput (h : m.Attended) {parseError : String}
    (hact : m.finalizeOutput config key parseError = some m') : m'.Attended := by
  have htransient : ∀ {text : String} {m' : Workers},
      m.notify config m.store key (.completed (.transient text)) = some m' → m'.Attended :=
    fun hnotify => h.notify_self hnotify (Or.inr (fun _ => trivial)) (fun _ _ heq => by cases heq)
  unfold Workers.finalizeOutput at hact
  split at hact
  · next outcome completedAt first delay hw =>
    split at hact
    · exact htransient hact
    split at hact
    · exact htransient hact
    next definition _ =>
    -- an active attempt has an artifact that can be recorded
    have hrecordable : m.stopping = true ∨ (m.store.attemptActive key = true →
        ∃ s, m.store.reconcileOutputFinalized (outcome.record key) completedAt = .ok s) := by
      refine h.attended.imp id (fun hattended hactive => ?_)
      obtain ⟨w, hw', o, ho, hexpects⟩ := hattended key hactive
      obtain rfl := Option.some.inj (hw.symm.trans hw')
      exact Store.reconcileOutputFinalized_succeeds ho hexpects (outcome.not_negative_record key)
    split at hact
    · next error herror =>
      refine h.notify_self hact ?_ (fun _ _ heq => by cases heq)
      refine hrecordable.imp id (fun hsucceeds hactive => ?_)
      obtain ⟨s, hs⟩ := hsucceeds hactive
      rw [herror] at hs
      cases hs
    · next s hs =>
      cases hact
      have happly : m.store.apply
          (.reconcileOutputFinalized (outcome.record key) completedAt) = .ok s := hs
      refine ⟨h.reachable.tail ⟨.reconcileOutputFinalized (outcome.record key) completedAt,
        trivial, happly⟩, ?_, ?_⟩
      · intro k w outcome' completedAt' first' delay' hk hphase
        dsimp only at hk
        by_cases hkey : k = key
        · subst hkey
          rw [Function.update_self] at hk
          cases hk
          cases hphase
          exact h.reported k _ outcome completedAt first delay hw rfl
        · rw [Function.update_of_ne hkey] at hk
          exact h.reported k w outcome' completedAt' first' delay' hk hphase
      · refine h.attended.imp id (fun hattended k hactive => ?_)
        have hbefore := Store.active_of_apply h.reachable.owned happly
          (fun _ _ _ _ heq => by cases heq) hactive
        by_cases hkey : k = key
        · subst hkey
          obtain ⟨o, ho, hrecords⟩ := Store.reconcileOutputFinalized_records hs
          exact ⟨_, Function.update_self .., o, ho, Or.inr hrecords⟩
        obtain ⟨w, hw', hattends⟩ := hattended k hbefore
        refine ⟨w, (Function.update_of_ne hkey ..).trans hw', ?_⟩
        refine hattends.apply h.reachable.owned happly ?_ (fun _ heq => by cases heq)
        intro hsettles
        exact hkey (Option.some.inj hsettles).symm
  · cases hact

theorem Attended.completeAttempt (h : m.Attended)
    (hact : m.completeAttempt config key = some m') : m'.Attended := by
  unfold Workers.completeAttempt at hact
  split at hact
  · next outcome completedAt first delay definition hw =>
    have hreported : outcome.Reported := h.reported key _ outcome completedAt first delay hw rfl
    have hretry : (definition.completion key.1 key.2 outcome.toExecutionOutcome
        completedAt).retry.isSome = true →
        outcome.kind = .failedRetryable ∨ outcome.kind = .timedOut := retryable_of_decideRetry
    split at hact
    · next error herror =>
      refine h.notify_self hact (Or.inr ?_) (fun _ _ heq => by cases heq)
      intro hactive
      rcases mapCompletionError_cases error with ⟨message, rfl⟩ | ⟨text, htext⟩
      · refine absurd herror (Store.completeAttempt_no_conflict hactive (fun hsome => ?_))
        show outcome.kind.completionState = _ ∨ outcome.kind.completionState = _
        rcases hretry hsome with hkind | hkind
        · exact Or.inl (by rw [hkind]; rfl)
        · exact Or.inr (by rw [hkind]; rfl)
      · rw [htext]
        trivial
    · next s hs =>
      have happly : m.store.apply (.completeAttempt (definition.completion key.1 key.2
          outcome.toExecutionOutcome completedAt)) = .ok s := hs
      have hunmarked : Store.unmarkedRetries m.store (.completeAttempt (definition.completion
          key.1 key.2 outcome.toExecutionOutcome completedAt)) :=
        fun hsome => hreported.unmarked (hretry hsome)
      refine h.notify_apply hact happly hunmarked (fun _ _ _ _ heq => by cases heq)
        (fun _ _ _ heq => by cases heq) (fun k hk => by cases hk) ?_
        (fun _ _ heq => by cases heq)
      intro hactive
      rw [show s.attemptActive key = false from Store.completeAttempt_closes hs] at hactive
      cases hactive
  · cases hact

/-- Recording a failure: it succeeds as long as the attempt is active, unless the task has fallen
back, when the attempt is not active any more. -/
theorem Attended.recordFailure (h : m.Attended) {completedAt : Int} {reason : String}
    {kind : RunnerFailureKind} {w : Worker} (hw : m.tasks key = some w)
    (hphase : ∀ o, w.phase.Expects key o → o.isOpen = true)
    (hact : m.recordFailure config key completedAt reason kind = some m') : m'.Attended := by
  unfold Workers.recordFailure at hact
  split at hact
  · next error herror =>
    refine h.notify_self hact ?_ (fun _ _ heq => by cases heq)
    refine h.attended.imp id (fun hattended hactive => ?_)
    obtain ⟨w', hw', o, ho, hexpects⟩ := hattended key hactive
    obtain rfl := Option.some.inj (hw.symm.trans hw')
    obtain ⟨s, hs⟩ := Store.completeRunnerFailure_succeeds h.reachable hactive ho
      (hphase o hexpects)
    rw [herror] at hs
    cases hs
  · next s hs =>
    have happly : m.store.apply (.completeRunnerFailure key.1 key.2 completedAt reason
        (kind = .executionMayHaveStarted)) = .ok s := hs
    refine h.notify_apply hact happly trivial (fun _ _ _ _ heq => by cases heq)
      (fun _ _ _ heq => by cases heq) (fun k hk => (Option.some.inj hk).symm) ?_
      (fun _ _ heq => by cases heq)
    intro hactive
    rw [show s.attemptActive key = false from Store.completeRunnerFailure_closes hs] at hactive
    cases hactive

theorem Attended.completeRunnerFailure (h : m.Attended)
    (hact : m.completeRunnerFailure config key = some m') : m'.Attended := by
  unfold Workers.completeRunnerFailure at hact
  split at hact
  · next reason completedAt definition hw =>
    exact h.recordFailure hw (fun _ hexpects => hexpects.elim) hact
  · next kind reason completedAt first delay definition hw =>
    exact h.recordFailure hw (fun _ hopen => hopen) hact
  · cases hact

theorem Attended.fault (h : m.Attended) {error : String}
    (hact : ((m.tasks key).bind (fun w => faultEvent error w.phase)).bind
      (m.notify config m.store key) = some m') : m'.Attended := by
  obtain ⟨event, hevent, hnotify⟩ := Option.bind_eq_some_iff.mp hact
  obtain ⟨w, -, hfault⟩ := Option.bind_eq_some_iff.mp hevent
  have hcontinues : event.Continues ∧
      ∀ outcome completedAt, event ≠ .executed (.ok outcome) completedAt := by
    cases hphase : w.phase with
    | executing | ended =>
      rw [hphase] at hfault
      cases hfault
    | _ =>
      rw [hphase] at hfault
      cases hfault
      exact ⟨trivial, fun _ _ heq => by cases heq⟩
  exact h.notify_self hnotify (Or.inr (fun _ => hcontinues.1))
    (fun outcome completedAt heq => absurd heq (hcontinues.2 outcome completedAt))

theorem Attended.commit (h : m.Attended) {op : Op} (hop : foreign m.store op) {s : Store}
    (happly : m.store.apply op = .ok s) : ({ m with store := s } : Workers).Attended := by
  have hadmits : ∀ prepared lifetime now guard, op ≠ .admitRuns prepared lifetime now guard := by
    rintro _ _ _ _ rfl
    exact hop
  have hunmarked : Store.unmarkedRetries m.store op := by
    cases op with
    | completeAttempt c => exact hop.elim
    | _ => trivial
  refine ⟨h.reachable.tail ⟨op, hunmarked, happly⟩, h.reported, ?_⟩
  refine h.attended.imp id (fun hattended key hactive => ?_)
  have hbefore := Store.active_of_apply h.reachable.owned happly hadmits hactive
  obtain ⟨w, hw, hattends⟩ := hattended key hbefore
  refine ⟨w, hw, hattends.apply h.reachable.owned happly ?_ ?_⟩
  · -- only recovery settles artifacts, and it skips those of active attempts
    intro hsettles
    have hinactive : m.store.attemptActive key = false := by
      cases op with
      | reconcileOutputFinalized | reconcileOutputMissing =>
        obtain rfl := Option.some.inj hsettles
        exact hop
      | markAttemptRunning | completePreExecutionFailure | completeRunnerFailure => exact hop.elim
      | _ => cases hsettles
    rw [hbefore] at hinactive
    cases hinactive
  · -- the run of an active attempt is live, so its artifacts are not pruned
    rintro now rfl
    obtain ⟨r, hr, hterminal⟩ := hop
    obtain ⟨r', hr', hlive⟩ := Store.live_of_attemptActive h.reachable hbefore
    obtain rfl := Option.some.inj (hr.symm.trans hr')
    rw [RunRow.not_live_of_terminal hterminal] at hlive
    cases hlive

end Steps

end Workers

/-! ## Admission -/

namespace AdmitEnv

variable {Target : Type} {env : AdmitEnv Target} {limits : OutputLimits} {globalRetained : Int}
  {s : Store}

theorem prepareBatch_reachable (batch : List (RunRow × Nat))
    (runnable : List (AdmittedAttempt Target)) (h : Store.Reachable Store.unmarkedRetries s) :
    Store.Reachable Store.unmarkedRetries
      (env.prepareBatch limits globalRetained batch runnable s).1 := by
  induction batch generalizing s runnable with
  | nil => exact h
  | cons x rest ih =>
    obtain ⟨row, number⟩ := x
    unfold prepareBatch
    split
    · exact ih _ h
    split
    · exact h
    next s₁ hs₁ =>
    obtain ⟨output, completedAt, text, hcomplete⟩ := failAdmittedAttempt_ok hs₁
    exact ih runnable (h.tail
      ⟨.completePreExecutionFailure row.id number output completedAt text, trivial, hcomplete⟩)

theorem prepareBatch_handed (batch : List (RunRow × Nat)) (runnable : List (AdmittedAttempt Target))
    {handed : List (AdmittedAttempt Target)}
    (h : (env.prepareBatch limits globalRetained batch runnable s).2 = .ok handed)
    {a : AdmittedAttempt Target} (ha : a ∈ handed) :
    a ∈ runnable ∨ (a.runId, a.context.attempt) ∈ batch.map (fun x => (x.1.id, x.2)) := by
  induction batch generalizing s runnable with
  | nil =>
    cases h
    exact Or.inl ha
  | cons x rest ih =>
    obtain ⟨row, number⟩ := x
    unfold prepareBatch at h
    split at h
    · next admitted hadmitted =>
      rcases ih _ h with hmem | hmem
      · rcases List.mem_append.mp hmem with hmem | hmem
        · exact Or.inl hmem
        · rw [List.mem_singleton.mp hmem, prepareAttempt_key hadmitted]
          exact Or.inr (List.mem_cons_self ..)
      · exact Or.inr (List.mem_cons_of_mem _ hmem)
    · split at h
      · cases h
      · exact (ih _ h).imp id (List.mem_cons_of_mem _)

/-- What is handed over is new. -/
theorem admitBatch_fresh {prepared : Uuid → Option Snapshot} {lifetime : Uuid} {capacity : Nat}
    {runnable : List (AdmittedAttempt Target)}
    (h : (env.admitBatch s prepared lifetime capacity).2 = .ok runnable)
    {a : AdmittedAttempt Target} (ha : a ∈ runnable) :
    s.attemptActive (a.runId, a.context.attempt) = false := by
  unfold admitBatch at h
  split at h
  · cases h
  split at h
  · cases h
  dsimp only at h
  split at h
  · cases h
  next batch s₁ hadmits =>
  obtain ⟨-, hfresh, -⟩ := Store.admitRuns_ready hadmits
  have hmem := (prepareBatch_handed batch [] h ha).resolve_left List.not_mem_nil
  obtain ⟨x, hx, hkey⟩ := List.mem_map.mp hmem
  rw [Store.attemptActive, ← hkey, hfresh x hx]
  rfl

theorem admitBatch_reachable {prepared : Uuid → Option Snapshot} {lifetime : Uuid} {capacity : Nat}
    (h : Store.Reachable Store.unmarkedRetries s) :
    Store.Reachable Store.unmarkedRetries (env.admitBatch s prepared lifetime capacity).1 := by
  unfold admitBatch
  split
  · exact h
  split
  · exact h
  dsimp only
  split
  · exact h
  next batch s₁ hadmits =>
  refine prepareBatch_reachable batch [] (h.tail
    ⟨.admitRuns prepared lifetime env.now capacity, trivial, ?_⟩)
  show (s.admitRuns prepared lifetime env.now capacity).map Prod.snd = .ok s₁
  rw [hadmits]
  rfl

end AdmitEnv

namespace Workers

variable {Target : Type} {config : TaskConfig} {m m' : Workers}

theorem Attended.admitBatch (h : m.Attended) {env : AdmitEnv Target}
    {prepared : Uuid → Option Snapshot} {lifetime : Uuid} {capacity : Nat}
    (hrecords : env.RecordsFailures m.store prepared lifetime capacity) :
    ({ m with
      store := (env.admitBatch m.store prepared lifetime capacity).1
      tasks := spawn config m.tasks (env.admitBatch m.store prepared lifetime capacity).2 } :
      Workers).Attended := by
  have hspawned : ∀ key, (spawn config m.tasks
        (env.admitBatch m.store prepared lifetime capacity).2 key = m.tasks key) ∨
      (m.store.attemptActive key = false ∧
        spawn config m.tasks (env.admitBatch m.store prepared lifetime capacity).2 key
          = some ⟨AttemptTask.start config, none⟩) := by
    intro key
    unfold spawn
    split
    · exact Or.inl rfl
    next runnable hresult =>
    split
    · next hany =>
      obtain ⟨a, ha, hkey⟩ := List.any_eq_true.mp hany
      have hfresh := AdmitEnv.admitBatch_fresh hresult ha
      rw [of_decide_eq_true hkey] at hfresh
      exact Or.inr ⟨hfresh, rfl⟩
    · exact Or.inl rfl
  refine ⟨AdmitEnv.admitBatch_reachable h.reachable, ?_, ?_⟩
  · intro key w outcome completedAt first delay hw hphase
    rcases hspawned key with hsame | ⟨-, hnew⟩
    · exact h.reported key w outcome completedAt first delay (hsame.symm.trans hw) hphase
    · obtain rfl := Option.some.inj (hnew.symm.trans hw)
      cases hphase
  · refine h.attended.imp id (fun hattended key hactive => ?_)
    rcases AdmitEnv.admitBatch_active hrecords hactive with ⟨hbefore, houtput⟩ | ⟨hhanded, hpending⟩
    · obtain ⟨w, hw, o, ho, hexpects⟩ := hattended key hbefore
      rcases hspawned key with hsame | ⟨hfresh, -⟩
      · exact ⟨w, hsame.trans hw, o, houtput.trans ho, hexpects⟩
      · rw [hbefore] at hfresh
        cases hfresh
    · obtain ⟨runnable, hresult, a, ha, hkey⟩ := hhanded
      refine ⟨⟨AttemptTask.start config, none⟩, ?_, .pending key.1 key.2, hpending, rfl⟩
      have hany : runnable.any (fun a => (a.runId, a.context.attempt) = key) = true :=
        List.any_eq_true.mpr ⟨a, ha, by simpa using hkey⟩
      show spawn config m.tasks (env.admitBatch m.store prepared lifetime capacity).2 key = _
      unfold spawn
      rw [hresult]
      simp only [hany, if_true]

theorem Attended.act {a : WorkerAction Target} (h : m.Attended) (ha : m.allowed a)
    (hact : m.act config a = some m') : m'.Attended := by
  cases a with
  | commit op =>
    simp only [Workers.act] at hact
    split at hact
    · cases hact
    next s happly =>
    cases hact
    exact h.commit ha happly
  | admitBatch env prepared lifetime capacity =>
    cases hact
    exact h.admitBatch ha
  | stop =>
    cases hact
    exact ⟨h.reachable, h.reported, Or.inl rfl⟩
  | observeStop key =>
    obtain ⟨hstop, hnotify⟩ := Option.ite_none_right_eq_some.mp hact
    exact h.notify_self hnotify (Or.inl hstop) (fun _ _ heq => by cases heq)
  | executed key result completedAt =>
    refine h.notify_self hact (Or.inr (fun _ => trivial)) ?_
    rintro outcome completedAt heq
    cases heq
    exact ha
  | fault key error => exact h.fault hact
  | markRunning key now executable => exact h.markRunning hact
  | finalizeOutput key parseError => exact h.finalizeOutput hact
  | completeAttempt key => exact h.completeAttempt hact
  | completeRunnerFailure key => exact h.completeRunnerFailure hact

/-- While the daemon is not asked to stop, every active attempt has a task that has not ended. -/
theorem active_attempt_attended (h : Reaches Target config m) (hrunning : m.stopping = false)
    {key : Uuid × Nat} (hactive : m.store.attemptActive key = true) :
    ∃ w, m.tasks key = some w ∧ w.phase ≠ .ended := by
  have hattended : m.Attended := Runs.Reaches.invariant (fun _ hs => attended_initial hs)
    (fun _ _ _ hs ha hact => hs.act ha hact) h
  rcases hattended.attended with hstop | howned
  · rw [hrunning] at hstop
    cases hstop
  obtain ⟨w, hw, o, -, hexpects⟩ := howned key hactive
  refine ⟨w, hw, fun hended => ?_⟩
  rw [hended] at hexpects
  exact hexpects

end Workers

namespace AttemptTask

/-- **A task does not give up early** exactly if its last answer is not a transient error to a
fallback; and in every run of the daemon, until it is asked to stop, no active attempt is without a
task that goes on. -/
theorem gives_up_early_iff (Target : Type) (config : TaskConfig) :
    (∀ events, run config events (start config) = some .ended →
        (EndsProperly events ↔ ¬ TransientFallback events)) ∧
      ∀ m, Workers.Reaches Target config m → m.stopping = false →
        ∀ key, m.store.attemptActive key = true → ∃ w, m.tasks key = some w ∧ w.phase ≠ .ended :=
  ⟨fun events h => explains_run events h,
    fun _ h hrunning _ hactive => Workers.active_attempt_attended h hrunning hactive⟩

def success : RunnerOutcome := ⟨⟨.succeeded, some 0, none, none, "process exited", 0⟩, {}⟩

/-- The completion is refused, and the database is busy when the fallback is to be recorded. -/
def busyFallback : List TaskEvent :=
  [.marked (.ok true),
   .executed (.ok success) 0,
   .completed (.conflict "durable conflict: attempt is not active for completion"),
   .failureCompleted (.transient "database is locked")]

/-- The task ends, though the fallback was neither accepted nor refused. -/
theorem busy_fallback_ends_task :
    ∃ config events, run config events (start config) = some .ended ∧ ¬ EndsProperly events := by
  refine ⟨⟨1, 1⟩, busyFallback, rfl, ?_⟩
  unfold EndsProperly Refused busyFallback
  simp

/-- Every target resolves, and every failure could be recorded. -/
def resolved : AdmitEnv Unit :=
  { AdmitEnv.unresolvedAndBusy with
    engineTarget := fun _ _ _ => .ok ()
    recordFault := fun _ _ => none }

/-- A task whose completion is accepted at the second attempt, and a daemon with an active one. -/
theorem gives_up_early_accepted :
    EndsProperly [.marked (.ok true), .executed (.ok success) 0,
        .completed (.transient "database is locked"), .completed .ok] ∧
      ∃ m, Workers.Reaches Unit ⟨1, 1⟩ m ∧ m.store.attemptActive (3, 1) = true ∧
        ∃ w, m.tasks (3, 1) = some w ∧ w.phase ≠ .ended := by
  have hkeeps := gives_up_early_iff Unit ⟨1, 1⟩
  constructor
  · refine (hkeeps.1 _ rfl).mpr ?_
    rintro ⟨error, error', before, hsplit⟩
    have hlast := congrArg List.getLast? hsplit
    simp at hlast
  · obtain ⟨s, hs, ⟨stale, s₁⟩, hbegin, hactive⟩ := Store.exists_reachable Store.unmarkedRetries
      AdmitEnv.waitingRun
      (fun s => ∃ x, s.beginLifetime 4 0 = .ok x ∧
        (resolved.admitBatch x.2 (fun _ => some AdmitEnv.hourlyJob) 4 1).1.attemptActive
          (3, 1) = true)
      (by simp [AdmitEnv.waitingRun, Store.unmarkedRetries]) (by decide +kernel)
    have hinitial : Workers.initial ⟨s₁, fun _ => none, false⟩ :=
      ⟨⟨s, 4, 0, stale, hs, hbegin⟩, fun _ => rfl, rfl⟩
    have hreaches : Workers.Reaches Unit ⟨1, 1⟩ _ := Runs.Reaches.step (.start hinitial)
      (a := .admitBatch resolved (fun _ => some AdmitEnv.hourlyJob) 4 1)
      (fun _ _ _ _ _ _ _ _ _ _ => rfl) rfl
    exact ⟨_, hreaches, hactive, hkeeps.2 _ hreaches rfl _ hactive⟩

end AttemptTask

end Locron
