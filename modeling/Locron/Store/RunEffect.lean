import Locron.Store.RunView

set_option autoImplicit false

/-! # Operations as steps of runs

Every committed operation is one step of each run (`Store.apply_effect`). Each operation is read
once, here; the invariants of runs are then proved by cases on the steps.
-/

namespace Locron

variable {permits : Permits}

namespace Store

/-- Every attempt belongs to a run that exists. -/
def Owned (s : Store) : Prop := ∀ id, (s.view id).Owned

/-- The second state is one step away from the first, for each run. -/
def Effect (permits : Permits) (s s' : Store) : Prop :=
  ∀ id, RunStep permits id (s.view id) (s'.view id)

variable {s s' : Store}

theorem Effect.of_view_eq (h : ∀ id, s'.view id = s.view id) :
    Effect permits s s' := by
  intro id
  rw [h id]
  exact .keep _

theorem Effect.of_run (run : Uuid) (hother : ∀ id, id ≠ run → s'.view id = s.view id)
    (hrun : RunStep permits run (s.view run) (s'.view run)) : Effect permits s s' := by
  intro id
  by_cases hid : id = run
  · subst hid
    exact hrun
  · rw [hother id hid]
    exact .keep _

/-! ## Rows of a view -/

theorem view_run (s : Store) (id : Uuid) : (s.view id).run = s.runs.find id := rfl

variable {r : RunRow} {id : Uuid}

theorem id_of_view (h : (s.view id).run = some r) :
    r.id = id :=
  Table.key_of_find h

theorem mem_view_attempts {a : AttemptRow} :
    a ∈ (s.view id).attempts ↔ a ∈ s.attempts.rows ∧ a.runId = id := by
  simp [view]

variable {p : RunRow → Bool}

/-- A row condition that no row of the run meets changes nothing. -/
theorem map_run_eq_self {f : RunRow → RunRow} (h : ∀ r : RunRow, r.id = id → p r = false) :
    (s.view id).run.map (fun r => if p r then f r else r) = (s.view id).run := by
  cases hr : (s.view id).run with
  | none => rfl
  | some r => simp [h r (id_of_view hr)]

variable {run : Uuid} {number : Nat}

theorem onActive_eq_self {f : AttemptRow → AttemptRow}
    (h : id ≠ run) : onActive run number f (s.view id).attempts = (s.view id).attempts := by
  apply map_attempts_eq_self
  intro a ha
  simp [AttemptRow.isActiveOf, ha, h]

theorem hasActive_of_count (h : s.attempts.count (AttemptRow.isActiveOf run number) = 1) :
    HasActive run number (s.view run).attempts := by
  have hpos : 0 < s.attempts.rows.countP (AttemptRow.isActiveOf run number) := by
    show 0 < s.attempts.count _
    omega
  obtain ⟨a, ha, hp⟩ := List.countP_pos_iff.mp hpos
  have hid : a.runId = run := by
    simp only [AttemptRow.isActiveOf, Bool.and_eq_true, decide_eq_true_eq] at hp
    exact hp.1.1
  exact ⟨a, mem_view_attempts.mpr ⟨ha, hid⟩, hp⟩

theorem exists_of_count_run (h : s.runs.count (fun r => r.id = run && p r) = 1) :
    ∃ r, s.runs.find run = some r ∧ p r = true := by
  have hpos : 0 < s.runs.rows.countP (fun r => r.id = run && p r) := by
    show 0 < s.runs.count _
    omega
  obtain ⟨r, hr, hp⟩ := List.countP_pos_iff.mp hpos
  simp only [Bool.and_eq_true, decide_eq_true_eq] at hp
  exact ⟨r, Table.find_eq_some.mpr ⟨hr, hp.1⟩, hp.2⟩

theorem Owned.exists_run (howned : s.Owned)
    (h : HasActive run number (s.view run).attempts) : ∃ r, s.runs.find run = some r := by
  cases hr : s.runs.find run with
  | some r => exact ⟨r, rfl⟩
  | none =>
    obtain ⟨a, ha, -⟩ := h
    rw [howned run hr] at ha
    cases ha

theorem Effect.of_attempt {f : AttemptRow → AttemptRow}
    {g : RunRow → RunRow} (hp : ∀ r, p r = true → r.id = run)
    (hview : ∀ id, s'.view id = ⟨(s.view id).run.map (fun r => if p r then g r else r),
      onActive run number f (s.view id).attempts⟩)
    (hr : s.runs.find run = some r)
    (hstep : RunStep permits run ⟨some r, (s.view run).attempts⟩
      ⟨some (if p r then g r else r), onActive run number f (s.view run).attempts⟩) :
    Effect permits s s' := by
  apply Effect.of_run run
  · intro id hid
    rw [hview id, onActive_eq_self hid, map_run_eq_self]
    intro x hx
    by_contra hpx
    exact hid (hx.symm.trans (hp x (by simpa using hpx)))
  · have hv : s.view run = ⟨some r, (s.view run).attempts⟩ := by rw [← hr]; rfl
    rw [hview run, view_run, hr, hv]
    exact hstep

theorem Effect.of_row {g : RunRow → RunRow} (hp : ∀ r, p r = true → r.id = run)
    (hview : ∀ id, s'.view id = { s.view id with
      run := (s.view id).run.map (fun r => if p r then g r else r) })
    (hr : s.runs.find run = some r)
    (hstep : RunStep permits run ⟨some r, (s.view run).attempts⟩
      ⟨some (if p r then g r else r), (s.view run).attempts⟩) :
    Effect permits s s' := by
  apply Effect.of_run run
  · intro id hid
    rw [hview id, map_run_eq_self]
    intro x hx
    by_contra hpx
    exact hid (hx.symm.trans (hp x (by simpa using hpx)))
  · have hv : s.view run = ⟨some r, (s.view run).attempts⟩ := by rw [← hr]; rfl
    rw [hview run, view_run, hr, hv]
    exact hstep

/-! ## Starting -/

variable {now : Int}

theorem cancelBeforeSpawn_effect
    {source : String} (hr : s.runs.find run = some r) (hlive : r.state.isLive = true)
    (hcancel : r.cancellationReason = some source)
    (h : s.cancelBeforeSpawn r number now source = .ok s') : Effect permits s s' := by
  have hid : r.id = run := Table.key_of_find hr
  subst hid
  unfold cancelBeforeSpawn at h
  dsimp only at h
  split at h
  · cases h
  next hcount =>
  cases h
  have hactive := hasActive_of_count (not_not.mp hcount)
  apply Effect.of_attempt ?hp ?hview hr ?hstep
  case hview =>
    intro id
    simp only [view_softRemove, view_event, view_deleteRetryIntents, view_updateRuns,
      view_updateOutputs, view_updateAttempts]
    rfl
  case hp => simp +contextual
  case hstep =>
    simp only [hlive, Bool.and_true, decide_true, if_true]
    exact .cancelBeforeSpawn r number now _ hlive (by simp [hcancel]) hactive

theorem ready_effect
    {executable : Option String} (hr : s.runs.find run = some r) (hstate : r.state = .starting)
    (hcancel : r.cancellationReason = none)
    (hcount : s.attempts.count (AttemptRow.isStartingOf run number) = 1) :
    Effect permits s ((s.updateAttempts (AttemptRow.isStartingOf run number)
        (AttemptRow.markRunning now executable) AttemptRow.key_markRunning).updateRuns
      (fun r => r.id = run && r.state = .starting) (fun r => { r with state := .running })
      (fun _ => rfl)) := by
  obtain rfl : r.id = run := Table.key_of_find hr
  apply Effect.of_run r.id
  · intro id hid
    rw [view_updateRuns, view_updateAttempts, map_attempts_eq_self, map_run_eq_self]
    · intro x hx
      simp [hx, hid]
    · intro a ha
      simp [AttemptRow.isStartingOf, ha, hid]
  · have hpos : 0 < s.attempts.rows.countP (AttemptRow.isStartingOf r.id number) := by
      show 0 < s.attempts.count _
      omega
    obtain ⟨a, ha, hp⟩ := List.countP_pos_iff.mp hpos
    have hrun : a.runId = r.id := by
      simp only [AttemptRow.isStartingOf, Bool.and_eq_true, decide_eq_true_eq] at hp
      exact hp.1.1
    have hv : s.view r.id = ⟨some r, (s.view r.id).attempts⟩ := by rw [← hr]; rfl
    rw [view_updateRuns, view_updateAttempts, hv]
    simp only [Option.map_some, hstate, decide_true, Bool.and_self, if_true]
    exact .ready r number now executable hstate hcancel
      ⟨a, mem_view_attempts.mpr ⟨ha, hrun⟩, hp⟩

theorem markAttemptRunning_effect {executable : Option String} {decision : StartDecision}
    (h : s.markAttemptRunning run number now executable = .ok (decision, s')) :
    Effect permits s s' := by
  unfold markAttemptRunning at h
  split at h
  · cases h
  next r hr =>
  split at h
  · cases h
  next hlive =>
  rw [Bool.not_eq_true, Bool.not_eq_false'] at hlive
  split at h
  · next source hcancel =>
    obtain ⟨s₁, hs₁, heq⟩ := Except.map_eq_ok.mp h
    cases heq
    exact cancelBeforeSpawn_effect hr hlive hcancel hs₁
  · next hcancel =>
    split at h
    · -- an attempt that already runs is only confirmed
      split at h
      · cases h
        exact .of_view_eq (fun _ => rfl)
      · cases h
    · next hstate =>
      split at h
      · cases h
      next hcount =>
      cases h
      have hstarting : r.state = .starting := by
        revert hlive hstate
        cases r.state <;> simp [RunState.isLive]
      exact ready_effect hr hstarting hcancel (not_not.mp hcount)

/-! ## Completing -/

structure PermitsCompletion (permits : Permits) (s : Store) (c : AttemptCompletion) : Prop where
  retry : c.retry.isSome = true → ∀ r, s.runs.find c.runId = some r → permits.retry r c.reason
  quarantine : c.state = .terminationUnconfirmed →
    ∀ r, s.runs.find c.runId = some r → permits.quarantine r
  plan : c.retry.isSome = true → ∀ r, s.runs.find c.runId = some r → permits.plan r c

variable {reason : String}

theorem Effect.of_quarantine {duration : Int} {q : RunRow → Bool}
    (hq : ∀ x, q x = true → x.replacementCandidate = true ∧ x.state.isPending = true)
    (hview : ∀ id, s'.view id = ⟨((s.view id).run.map
        (fun x => if x.id = run then x.quarantine else x)).map
        (fun x => if q x then x.finishCandidate .failed
          "replacement failed: predecessor termination unconfirmed" now else x),
      onActive run number
        (AttemptRow.close .interruptedUnknown now duration terminationUnconfirmed reason)
        (s.view id).attempts⟩)
    (hr : s.runs.find run = some r) (hlive : r.state.isLive = true)
    (hactive : HasActive run number (s.view run).attempts) (hmay : permits.quarantine r) :
    Effect permits s s' := by
  intro id
  rw [hview id]
  by_cases hid : id = run
  · subst hid
    have hv : s.view id = ⟨some r, (s.view id).attempts⟩ := by rw [← hr]; rfl
    have hnot : q r.quarantine = false := by
      by_contra hne
      have := (hq r.quarantine (by simpa using hne)).2
      cases this
    rw [hv]
    simp only [Option.map_some, Table.key_of_find hr, if_true, hnot, Bool.false_eq_true, if_false]
    exact .quarantine r number now duration reason hlive hactive hmay
  · rw [onActive_eq_self hid]
    cases hx : (s.view id).run with
    | none =>
      have hv : s.view id = ⟨none, (s.view id).attempts⟩ := by rw [← hx]
      rw [hv]
      exact .keep _
    | some x =>
      have hv : s.view id = ⟨some x, (s.view id).attempts⟩ := by rw [← hx]
      have hne : ¬ x.id = run := fun h => hid ((id_of_view hx).symm.trans h)
      simp only [Option.map_some, if_neg hne]
      rw [hv]
      split
      · next hqx => exact .failCandidate x now (hq x hqx).1 (hq x hqx).2
      · exact .keep _

theorem completeUnconfirmed_effect {c : AttemptCompletion}
    (hmay : ∀ r, s.runs.find c.runId = some r → permits.quarantine r)
    (h : s.completeUnconfirmed c = .ok s') : Effect permits s s' := by
  unfold completeUnconfirmed at h
  split at h
  · split at h
    · cases h
      exact .of_view_eq (fun _ => rfl)
    · cases h
  · next hcount =>
    split at h
    · cases h
    dsimp only at h
    split at h
    · cases h
    next r hr =>
    cases h
    obtain ⟨hfind, hlive⟩ := Option.filter_eq_some_iff.mp hr
    have hr : s.runs.find c.runId = some r := hfind
    have hactive := hasActive_of_count (not_not.mp hcount)
    split
    · apply Effect.of_quarantine ?hq ?hview hr hlive hactive (hmay r hr)
      case hview =>
        intro id
        simp only [view_event, view_deleteRetryIntents, view_updateRuns,
          view_updateAttempts, decide_eq_true_eq]
        rfl
      case hq => simp +contextual
    · apply Effect.of_quarantine (q := fun _ => false) (by simp) ?hview hr hlive hactive
        (hmay r hr)
      case hview =>
        intro id
        simp only [view_event, view_deleteRetryIntents, view_updateRuns,
          view_updateAttempts, decide_eq_true_eq, Bool.false_eq_true, if_false,
          Option.map_id']
        rfl

theorem completeAttempt_effect {c : AttemptCompletion} (howned : s.Owned)
    (hmay : PermitsCompletion permits s c) (h : s.completeAttempt c = .ok s') :
    Effect permits s s' := by
  unfold completeAttempt at h
  split at h
  · next hstate =>
    split at h
    · cases h
    · exact completeUnconfirmed_effect (hmay.quarantine hstate) h
  · next hstate =>
    split at h
    · cases h
    next hknown =>
    split at h
    · split at h
      · cases h
        exact .of_view_eq (fun _ => rfl)
      · cases h
    · next hcount =>
      split at h
      · cases h
      have hactive := hasActive_of_count (not_not.mp hcount)
      obtain ⟨r, hr⟩ := howned.exists_run hactive
      dsimp only at h
      split at h
      · next plan hplan =>
        cases h
        apply Effect.of_attempt ?hp ?hview hr ?hstep
        case hview =>
          intro id
          simp only [view_putRetryIntent, view_updateRuns, view_updateAttempts]
          rfl
        case hp => simp
        case hstep =>
          have hfailed : c.state = .failed ∨ c.state = .timedOut := by
            simp only [hplan, Option.isSome_some, Bool.true_and, Bool.and_eq_true,
              bne_iff_ne, not_and, not_not] at hknown
            by_cases hc : c.state = .failed
            · exact Or.inl hc
            · exact Or.inr (hknown hc)
          simp only [Table.key_of_find hr, decide_true, if_true]
          exact .retry r c plan hfailed hactive (hmay.retry (by simp [hplan]) r hr) hplan
            (hmay.plan (by simp [hplan]) r hr)
      · next hplan =>
        cases h
        apply Effect.of_attempt ?hp ?hview hr ?hstep
        case hview =>
          intro id
          simp only [view_softRemove, view_updateRuns, view_deleteRetryIntents,
            view_updateAttempts]
          rfl
        case hp => simp
        case hstep =>
          simp only [Table.key_of_find hr, decide_true, if_true]
          exact .complete r c hstate hactive

theorem completePreExecutionFailure_effect {output : Option OutputRecord}
    (h : s.completePreExecutionFailure run number output now reason = .ok s') :
    Effect permits s s' := by
  unfold completePreExecutionFailure at h
  obtain ⟨-, h⟩ := Except.guard_eq_ok.mp h
  obtain ⟨-, h⟩ := Except.guard_eq_ok.mp h
  obtain ⟨-, h⟩ := Except.guard_eq_ok.mp h
  obtain ⟨hcount, h⟩ := Except.guard_eq_ok.mp h
  dsimp only at h
  split at h
  · cases h
  next r hfind =>
  cases h
  have hr : s.runs.find run = some r := hfind
  apply Effect.of_attempt ?hp ?hview hr ?hstep
  case hview =>
    intro id
    simp only [view_softRemove, view_event, view_updateRuns, view_deleteRetryIntents,
      view_updateAttempts, view_updateOutputs]
    rfl
  case hp => simp +contextual
  case hstep =>
    simp only [Table.key_of_find hr, decide_true, Bool.true_and]
    exact .preExecution r number now reason (hasActive_of_count (not_not.mp hcount))

theorem view_applyRunnerFailure (s : Store) (id run : Uuid) (number : Nat) (now duration : Int)
    (reason : String) (mayHaveStarted : Bool) :
    (s.applyRunnerFailure run number now duration reason mayHaveStarted).view id
      = ⟨(s.view id).run.map (fun r => if r.id = run && r.state.isLive then
          r.finishCandidate (runnerFailureStates mayHaveStarted).2.1 reason now else r),
        onActive run number (AttemptRow.close (runnerFailureStates mayHaveStarted).1 now duration
          (runnerFailureStates mayHaveStarted).2.2 reason) (s.view id).attempts⟩ := by
  simp only [applyRunnerFailure, view_deleteRetryIntents, view_updateRuns, view_updateAttempts,
    view_updateOutputs]
  rfl

variable {mayHaveStarted : Bool}

theorem of_runnerFailureCommitted
    (h : s.runnerFailureCommitted run number reason mayHaveStarted = true) :
    ∃ r, s.runs.find run = some r ∧ r.state = (runnerFailureStates mayHaveStarted).2.1 ∧
      ∃ a ∈ (s.view run).attempts, a.number = number ∧
        a.resultClass = some (runnerFailureStates mayHaveStarted).2.2 := by
  unfold runnerFailureCommitted at h
  dsimp only at h
  split at h
  · next a r o ha hr ho =>
    simp only [Bool.and_eq_true, decide_eq_true_eq] at h
    obtain ⟨⟨⟨⟨⟨⟨-, hclass⟩, -⟩, hstate⟩, -⟩, -⟩, -⟩ := h
    have hkey : a.key = (run, number) := Table.key_of_find ha
    refine ⟨r, hr, hstate, a, mem_view_attempts.mpr ⟨Table.mem_of_find ha, ?_⟩, ?_, hclass⟩
    · exact congrArg Prod.fst hkey
    · exact congrArg Prod.snd hkey
  · cases h

/-- The writes of a runner failure, once they are known to be in order. -/
theorem Effect.of_runnerFailure {duration : Int} (hview : ∀ id, s'.view id
      = (s.applyRunnerFailure run number now duration reason mayHaveStarted).view id)
    (hr : s.runs.find run = some r)
    (happlied : (r.state.isLive = true ∧ HasActive run number (s.view run).attempts) ∨
      ∃ r', s'.runs.find run = some r' ∧ r'.state = (runnerFailureStates mayHaveStarted).2.1 ∧
        ∃ a ∈ (s'.view run).attempts, a.number = number ∧
          a.resultClass = some (runnerFailureStates mayHaveStarted).2.2) :
    Effect permits s s' := by
  simp only [view_applyRunnerFailure] at hview
  have hid : r.id = run := Table.key_of_find hr
  apply Effect.of_attempt (by simp +contextual) hview hr
  simp only [hid, decide_true, Bool.true_and]
  refine .runnerFailure r _ _ number now duration reason mayHaveStarted rfl rfl ?_
  rcases happlied with h | ⟨r', hr', hstate, hclass⟩
  · exact Or.inl h
  right
  have hrun : some r' = (s'.view run).run := hr'.symm
  rw [hview run] at hrun hclass
  rw [view_run, hr] at hrun
  simp only [Option.map_some, hid, decide_true, Bool.true_and, Option.some.injEq] at hrun
  exact ⟨hrun ▸ hstate, hclass⟩

theorem completeRunnerFailure_effect
    (h : s.completeRunnerFailure run number now reason mayHaveStarted = .ok s') :
    Effect permits s s' := by
  unfold completeRunnerFailure at h
  dsimp only at h
  split at h
  · split at h
    · cases h
    · cases h
  next duration hduration =>
  split at h
  · next hall =>
    simp only [Bool.and_eq_true, decide_eq_true_eq] at hall
    obtain ⟨r, hr, hlive⟩ := exists_of_count_run hall.2
    split at h
    · cases h
    cases h
    exact Effect.of_runnerFailure
      (fun id => (view_softRemove _ id _ _).trans (view_event _ id _ _ _ _ _)) hr
      (Or.inl ⟨hlive, hasActive_of_count hall.1.2⟩)
  · split at h
    · next hcommitted =>
      cases h
      obtain ⟨r', hr', hrest⟩ := of_runnerFailureCommitted hcommitted
      obtain ⟨r, hr⟩ : ∃ r, s.runs.find run = some r := by
        have hmap := congrArg RunView.run
          (view_applyRunnerFailure s run run number now duration reason mayHaveStarted)
        rw [view_run, hr', view_run] at hmap
        obtain ⟨r, hr, -⟩ := Option.map_eq_some_iff.mp hmap.symm
        exact ⟨r, hr⟩
      exact Effect.of_runnerFailure (fun _ => rfl) hr (Or.inr ⟨r', hr', hrest⟩)
    · cases h

/-! ## Cancelling -/

/-- What each outcome of a cancellation says about the row. -/
theorem of_cancellationDecision {acknowledge : Bool} {outcome : CancelOutcome}
    (h : cancellationDecision r acknowledge = .ok outcome) :
    match outcome with
    | .acknowledgedUnconfirmed => r.quarantined = true ∧ acknowledge = true
    | .cancelledBeforeExecution => r.state.isPending = true
    | .cancellationRequested => r.state.isLive = true := by
  unfold cancellationDecision at h
  split at h
  · split at h
    · next hack hq =>
      cases h
      exact ⟨hq, hack⟩
    · cases h
  · split at h
    · cases h
    · split at h <;> cases h <;> simp_all [RunState.isPending, RunState.isLive]

theorem cancelWithAcknowledgement_effect {acknowledge : Bool} {outcome : CancelOutcome}
    (hmay : acknowledge = true → ∀ r, s.runs.find run = some r → permits.acknowledge r)
    (h : s.cancelWithAcknowledgement run now acknowledge = .ok (outcome, s')) :
    Effect permits s s' := by
  unfold cancelWithAcknowledgement at h
  split at h
  · cases h
  next r hr =>
  have hid : r.id = run := Table.key_of_find hr
  split at h
  · cases h
  · next hdecision =>
    cases h
    have hq := of_cancellationDecision hdecision
    apply Effect.of_row ?hp ?hview hr ?hstep
    case hview =>
      intro id
      simp only [view_softRemove, view_event, view_deleteRetryIntents, view_updateRuns]
      rfl
    case hp => simp +contextual
    case hstep =>
      simp only [hid, hq.1, decide_true, Bool.and_self, if_true]
      exact .acknowledge r now hq.1 (hmay hq.2 r hr)
  · next hdecision =>
    cases h
    apply Effect.of_row ?hp ?hview hr ?hstep
    case hview =>
      intro id
      simp only [view_softRemove, view_event, view_deleteRetryIntents, view_updateRuns]
      rfl
    case hp => simp
    case hstep =>
      simp only [hid, decide_true, if_true]
      exact .cancelPending r now (of_cancellationDecision hdecision)
  · next hdecision =>
    split at h
    · cases h
      exact .of_view_eq (fun _ => rfl)
    cases h
    apply Effect.of_row ?hp ?hview hr ?hstep
    case hview =>
      intro id
      simp only [view_event, view_updateRuns]
      rfl
    case hp => simp
    case hstep =>
      simp only [hid, decide_true, if_true]
      exact .requestCancellation r now (of_cancellationDecision hdecision)

/-! ## Lifetimes -/

theorem view_foldl_softRemove (s : Store) (id : Uuid) (runs : List Uuid) (now : Int) :
    (runs.foldl (fun s run => s.softRemoveAfterOneTimeCompletion run now) s).view id
      = s.view id := by
  induction runs generalizing s with
  | nil => rfl
  | cons run runs ih =>
    rw [List.foldl_cons, ih, view_softRemove]

/-- A new lifetime closes what is open. -/
theorem view_beginLifetime {lifetime : Uuid} {stale : Nat}
    (h : s.beginLifetime lifetime now = .ok (stale, s')) (id : Uuid) :
    s'.view id = ⟨(s.view id).run.map (fun r => if r.stale then r.interrupt now else r),
      (s.view id).attempts.map (fun a => if a.state.isActive then a.interrupt now else a)⟩ := by
  unfold beginLifetime at h
  dsimp only at h
  split at h
  · cases h
  cases h
  refine Eq.trans (view_foldl_softRemove _ id _ now) ?_
  rw [view_updateRuns, view_updateAttempts]
  rfl

theorem beginLifetime_effect {lifetime : Uuid} {stale : Nat}
    (h : s.beginLifetime lifetime now = .ok (stale, s')) : Effect permits s s' := by
  intro id
  rw [view_beginLifetime h id]
  exact .interrupt (s.view id) now

end Store

end Locron
