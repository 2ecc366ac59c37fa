import Locron.Store.Consistency

set_option autoImplicit false

/-! # Quarantine

A run whose termination could not be confirmed stays running, without an attempt, and blocks its job
until an operator acknowledges the risk. The block itself holds. A replacement that already waits
for the run is failed with the quarantine only if the replacement was the first to ask the run to
stop: after an earlier request of the user it keeps waiting.
-/

namespace Locron

variable {permits : Permits}

/-! ## Steps -/

namespace RunRow

variable {r : RunRow}

theorem quarantined_iff : r.quarantined = true ↔
    r.state = .running ∧ r.reason = some terminationUnconfirmed := by
  simp [quarantined]

theorem not_pending_of_quarantined (h : r.quarantined = true) : r.state.isPending = false := by
  rw [(quarantined_iff.mp h).1]
  rfl

theorem not_terminal_of_quarantined (h : r.quarantined = true) : r.state.isTerminal = false := by
  rw [(quarantined_iff.mp h).1]
  rfl

theorem not_quarantined_of_state (h : r.state ≠ .running) : ¬ r.quarantined = true :=
  fun hq => h (quarantined_iff.mp hq).1

end RunRow

variable {id : Uuid} {v v' : RunView}

theorem RunStep.keeps_quarantine (hv : v.Consistent)
    (h : RunStep permits id v v') {r : RunRow} (hr : v.run = some r) (hq : r.quarantined = true) :
    (∃ r', v'.run = some r' ∧ r'.quarantined = true) ∨ permits.acknowledge r := by
  -- the run has no active attempt, so no completion addresses it
  have hactive : ∀ number, ¬ HasActive id number v.attempts := by
    intro number hno
    have hocc := (hv r hr).occupied_of_active hno
    rw [RunRow.occupied_eq_false_of_quarantined hq] at hocc
    cases hocc
  have hpending := RunRow.not_pending_of_quarantined hq
  have hlasting := RunRow.not_terminal_of_quarantined hq
  have hfailure := (hv r hr).failure
  cases h with
  | keep => exact Or.inl ⟨r, hr, hq⟩
  | overlap h =>
    obtain ⟨r', hr', hq', -⟩ := Store.keeps_quarantine_of_overlap h hr hq
    exact Or.inl ⟨r', hr', hq'⟩
  | start r₀ _ _ hp | failCandidate r₀ _ _ hp | cancelPending r₀ _ hp =>
    obtain rfl : r₀ = r := Option.some.inj hr
    rw [hpending] at hp
    cases hp
  | ready r₀ _ _ _ hstate _ _ =>
    obtain rfl : r₀ = r := Option.some.inj hr
    rw [(RunRow.quarantined_iff.mp hq).1] at hstate
    cases hstate
  | cancelBeforeSpawn _ number _ _ _ _ ha | quarantine _ number _ _ _ _ ha
  | preExecution _ number _ _ ha => exact absurd ha (hactive number)
  | complete _ c _ ha => exact absurd ha (hactive _)
  | retry _ c _ _ ha _ => exact absurd ha (hactive _)
  | runnerFailure r₀ _ _ number _ _ _ started _ hattempts happlied =>
    rcases happlied with ⟨-, ha⟩ | ⟨-, a, ha, -, hclass⟩
    · exact absurd ha (hactive number)
    rw [hattempts, onActive_of_not_hasActive (hactive number)] at ha
    rw [hfailure a ha started hclass] at hlasting
    cases hlasting
  | requestCancellation r₀ now _ =>
    obtain rfl : r₀ = r := Option.some.inj hr
    exact Or.inl ⟨_, rfl, hq⟩
  | acknowledge r₀ _ _ hmay =>
    obtain rfl : r₀ = r := Option.some.inj hr
    exact Or.inr hmay
  | interrupt _ now =>
    have hstale : r.stale = false := by
      simp [RunRow.stale, (RunRow.quarantined_iff.mp hq).2]
    exact Or.inl ⟨r, by simp [hr, hstale], hq⟩
  | delete r₀ hterminal hmay =>
    obtain rfl : r₀ = r := Option.some.inj hr
    rw [hlasting] at hterminal
    cases hterminal

variable {r' : RunRow}

/-- Occurrences and requests put no run into quarantine. -/
theorem OverlapStep.quarantine_origin (h : Relation.ReflTransGen (OverlapStep permits id) v v')
    (hr' : v'.run = some r') (hq : r'.quarantined = true) :
    ∃ r, v.run = some r ∧ r.quarantined = true ∧ r.jobId = r'.jobId := by
  refine OverlapStep.had h ?_ ?_ (fun _ _ hbefore => hbefore) hr' ⟨hq, rfl⟩
  · rintro r hnew ⟨hquarantined, -⟩
    rcases hnew.state with ⟨hstate, -, -⟩ | ⟨hterminal, -⟩
    · exact RunRow.not_quarantined_of_state (by simp [hstate]) hquarantined
    · rw [RunRow.not_terminal_of_quarantined hquarantined] at hterminal
      cases hterminal
  · rintro r now ⟨hquarantined, -⟩
    exact RunRow.not_quarantined_of_state (by simp [RunRow.supersede]) hquarantined

/-- A run is in quarantine because it was before, or because its completion could not be
confirmed. -/
theorem RunStep.quarantine_origin (hv : v.Consistent)
    (h : RunStep permits id v v') (hr' : v'.run = some r') (hq : r'.quarantined = true) :
    ∃ r, v.run = some r ∧ r.jobId = r'.jobId ∧ (r.quarantined = true ∨ permits.quarantine r) := by
  have hkept : ∀ r, v.run = some r → r.jobId = r'.jobId → r.quarantined = true →
      ∃ r, v.run = some r ∧ r.jobId = r'.jobId ∧ (r.quarantined = true ∨ permits.quarantine r) :=
    fun r hr hjob hquarantined => ⟨r, hr, hjob, Or.inl hquarantined⟩
  cases h with
  | keep => exact hkept r' hr' rfl hq
  | overlap h =>
    obtain ⟨r, hr, hquarantined, hjob⟩ := OverlapStep.quarantine_origin h hr' hq
    exact hkept r hr hjob hquarantined
  | start r lifetime now hpending hrequest =>
    cases hr'
    exact absurd hq (RunRow.not_quarantined_of_state (by simp))
  | ready r number now executable hstate hcancel hattempt =>
    -- before the spawn the reason is no mark, and the start leaves the reason alone
    cases hr'
    exact absurd (RunRow.quarantined_iff.mp hq).2 ((hv r rfl).unmarked (Or.inr hstate))
  | cancelBeforeSpawn | failCandidate | acknowledge =>
    cases hr'
    exact absurd hq (RunRow.not_quarantined_of_state (by simp [RunRow.finishCandidate,
      RunRow.finish]))
  | complete r c hstate hactive =>
    cases hr'
    refine absurd hq (RunRow.not_quarantined_of_state ?_)
    show c.state.runState ≠ .running
    revert hstate
    cases c.state <;> simp [CompletionState.runState]
  | retry r c plan hstate hactive hmay =>
    cases hr'
    exact absurd hq (RunRow.not_quarantined_of_state (by simp [RunRow.retry]))
  | quarantine r number now duration reason hlive hactive hmay =>
    cases hr'
    exact ⟨r, rfl, rfl, Or.inr hmay⟩
  | preExecution r number now reason hactive =>
    cases hr'
    split at hq
    · exact absurd hq (RunRow.not_quarantined_of_state (by simp [RunRow.finish]))
    · next hlive => exact absurd (RunRow.live_of_quarantined hq) hlive
  | runnerFailure r r₁ attempts' number now duration reason started hrun hattempts happlied =>
    cases hr'
    rw [hrun] at hq
    split at hq
    · refine absurd hq (RunRow.not_quarantined_of_state ?_)
      cases started <;> simp [RunRow.finishCandidate, RunRow.finish, Store.runnerFailureStates]
    · next hlive => exact absurd (RunRow.live_of_quarantined hq) hlive
  | requestCancellation r now hlive =>
    cases hr'
    exact hkept r rfl rfl hq
  | cancelPending r now hpending =>
    cases hr'
    exact absurd hq (RunRow.not_quarantined_of_state (by simp [RunRow.cancelPending,
      RunRow.finishCandidate, RunRow.finish]))
  | interrupt _ now =>
    obtain ⟨r, hr, rfl⟩ := Option.map_eq_some_iff.mp hr'
    split at hq
    · exact absurd hq (RunRow.not_quarantined_of_state (by simp [RunRow.interrupt]))
    next hstale =>
    rw [if_neg hstale]
    exact ⟨r, hr, rfl, Or.inl hq⟩
  | delete r hterminal hmay => cases hr'

/-! ## Waiting candidates -/

def RunRow.waiting (r : RunRow) : Bool := r.replacementCandidate && r.state.isPending

namespace RunRow

variable {r : RunRow}

theorem not_waiting_of_state (h : r.state.isPending = false) : ¬ r.waiting = true := by
  simp [waiting, h]

theorem not_waiting_of_flag (h : r.replacementCandidate = false) : ¬ r.waiting = true := by
  simp [waiting, h]

end RunRow

/-- The three ways to a waiting candidate: it was waiting before, it is new, or it is retried. -/
def WaitingOrigin (permits : Permits) (v : RunView) (r' : RunRow) : Prop :=
  (∃ r, v.run = some r ∧ r.jobId = r'.jobId ∧ r.waiting = true) ∨
    (r'.replacementCandidate = true ∧ permits.insert r') ∨
    ∃ r reason, v.run = some r ∧ r.jobId = r'.jobId ∧ r.replacementCandidate = true ∧
      permits.retry r reason

theorem OverlapStep.waiting_origin (h : Relation.ReflTransGen (OverlapStep permits id) v v')
    (hr' : v'.run = some r') (hw : r'.waiting = true) : WaitingOrigin permits v r' := by
  cases h with
  | refl => exact Or.inl ⟨r', hr', rfl, hw⟩
  | tail _ hlast =>
    -- only the last step matters: making room withdraws the candidacy
    cases hlast with
    | insert r hid hnew hmay =>
      cases hr'
      simp only [RunRow.waiting, Bool.and_eq_true] at hw
      exact Or.inr (Or.inl ⟨hw.1, hmay⟩)
    | supersede | requestReplacement =>
      cases hr'
      exact absurd hw (RunRow.not_waiting_of_flag rfl)

theorem RunStep.waiting_origin (h : RunStep permits id v v')
    (hr' : v'.run = some r') (hw : r'.waiting = true) :
    WaitingOrigin permits v r' := by
  cases h with
  | keep => exact Or.inl ⟨r', hr', rfl, hw⟩
  | overlap h => exact OverlapStep.waiting_origin h hr' hw
  | complete r c hstate hactive =>
    cases hr'
    refine absurd hw (RunRow.not_waiting_of_state ?_)
    show c.state.runState.isPending = false
    cases c.state <;> rfl
  | retry r c plan hstate hactive hmay =>
    cases hr'
    simp only [RunRow.waiting, Bool.and_eq_true] at hw
    exact Or.inr (Or.inr ⟨r, c.reason, rfl, rfl, hw.1, hmay⟩)
  | preExecution r number now reason hactive =>
    cases hr'
    split at hw
    · exact absurd hw (RunRow.not_waiting_of_state rfl)
    next hlive =>
    rw [if_neg hlive]
    exact Or.inl ⟨r, rfl, rfl, hw⟩
  | runnerFailure r r₁ attempts' number now duration reason started hrun hattempts happlied =>
    cases hr'
    subst hrun
    split at hw
    · exact absurd hw (RunRow.not_waiting_of_flag rfl)
    next hlive =>
    rw [if_neg hlive]
    exact Or.inl ⟨r, rfl, rfl, hw⟩
  | requestCancellation r now hlive =>
    cases hr'
    exact Or.inl ⟨r, rfl, rfl, hw⟩
  | interrupt _ now =>
    obtain ⟨r, hr, rfl⟩ := Option.map_eq_some_iff.mp hr'
    split at hw
    · exact absurd hw (RunRow.not_waiting_of_state rfl)
    next hstale =>
    rw [if_neg hstale]
    exact Or.inl ⟨r, hr, rfl, hw⟩
  | delete r hterminal hmay => cases hr'
  | _ =>
    cases hr'
    exact absurd hw (RunRow.not_waiting_of_state rfl)

namespace Store

/-! ## The unconfirmed completion -/

variable {s s' : Store}

theorem completeUnconfirmed_candidates {c : AttemptCompletion}
    (h : s.completeUnconfirmed c = .ok s') :
    s' = s ∨ ∃ r, s.runs.find c.runId = some r ∧
      (r.cancellationReason = some "replacement" →
        ∀ x ∈ s'.runs.rows, x.jobId = r.jobId → x.waiting = false) := by
  unfold completeUnconfirmed at h
  split at h
  · split at h
    · cases h
      exact Or.inl rfl
    · cases h
  · obtain ⟨-, h⟩ := Except.guard_eq_ok.mp h
    dsimp only at h
    split at h
    · cases h
    next r hr =>
    cases h
    obtain ⟨hfind, -⟩ := Option.filter_eq_some_iff.mp hr
    refine Or.inr ⟨r, hfind, ?_⟩
    intro hreason x hx hjob
    rw [if_pos hreason] at hx
    obtain ⟨y, -, rfl⟩ := List.mem_map.mp hx
    by_contra hw
    simp only [Bool.not_eq_false] at hw
    split at hw
    · exact RunRow.not_waiting_of_flag rfl hw
    next hcandidate =>
    rw [if_neg hcandidate] at hjob
    simp only [RunRow.waiting, Bool.and_eq_true] at hw
    exact hcandidate (by simp [hjob, hw])

/-! ## Reachable states -/

/-- Retries do not give the mark as their reason and do not send a former candidate back to a job in
quarantine; and where a termination is not confirmed, the replacement was the first to ask the run
to stop, or no candidate waits. -/
def settlesCandidates (s : Store) : Op → Prop
  | .completeAttempt c =>
    (c.retry.isSome = true → c.reason ≠ terminationUnconfirmed ∧
      ∀ r, s.runs.find c.runId = some r → r.replacementCandidate = true →
        s.jobQuarantined r.jobId = false) ∧
    (c.state = .terminationUnconfirmed → ∀ r, s.runs.find c.runId = some r →
      r.cancellationReason = some "replacement" ∨
        ∀ x ∈ s.runs.rows, x.jobId = r.jobId → x.waiting = false)
  | _ => True

variable {op : Op}

theorem unmarkedRetries_of_settlesCandidates (h : settlesCandidates s op) :
    unmarkedRetries s op := by
  cases op with
  | completeAttempt c => exact fun hretry => (h.1 hretry).1
  | _ => trivial

theorem jobQuarantined_iff {job : Uuid} : s.jobQuarantined job = true ↔
    ∃ r ∈ s.runs.rows, r.jobId = job ∧ r.quarantined = true := by
  simp only [jobQuarantined, Table.exist_iff, Bool.and_eq_true, decide_eq_true_eq]

def NoneWaiting (s : Store) : Prop :=
  ∀ job, s.jobQuarantined job = true → ∀ r ∈ s.runs.rows, r.jobId = job → r.waiting = false

/-- What an operation may do to the runs of a state: candidates come to no job in quarantine, and
only the run of an unconfirmed completion goes into quarantine. -/
def candidatePermits (s : Store) (op : Op) : Permits where
  insert row := (row.replacementCandidate = true → s.jobQuarantined row.jobId = false) ∧
    ∀ c, op ≠ .completeAttempt c
  retry r _ := (r.replacementCandidate = true → s.jobQuarantined r.jobId = false) ∧
    ∀ c, op = .completeAttempt c → c.retry.isSome = true
  quarantine r := ∃ c, op = .completeAttempt c ∧ c.state = .terminationUnconfirmed ∧
    s.runs.find c.runId = some r
  acknowledge _ := True
  delete _ := True

theorem permitted_candidatePermits (h : settlesCandidates s op) :
    Permitted (candidatePermits s op) s op := by
  refine permitted_of (fun hqueues row _ hcandidate => ⟨hcandidate, ?_⟩) ?_
  · rintro c rfl
    cases hqueues
  · rintro c rfl
    refine ⟨fun hretry r hr => ⟨(h.1 hretry).2 r hr, ?_⟩, fun hstate r hr => ⟨c, rfl, hstate, hr⟩,
      fun _ _ _ => trivial⟩
    rintro _ ⟨⟩
    exact hretry

/-- An unconfirmed completion that is not recorded yet makes the candidates of the job fail. -/
theorem noneWaiting_of_unconfirmed {c : AttemptCompletion}
    (hop : settlesCandidates s (.completeAttempt c)) (hstate : c.state = .terminationUnconfirmed)
    (hw : NoneWaiting s) (h : s.completeAttempt c = .ok s') {q r x x' : RunRow}
    (hq : s.runs.find c.runId = some q) (hjob : q.jobId = x'.jobId)
    (hr : r ∈ s'.runs.rows) (hrjob : r.jobId = x'.jobId) (hrq : r.quarantined = true)
    (hx : x ∈ s.runs.rows) (hxjob : x.jobId = x'.jobId) (hxw : x.waiting = true)
    (hx' : x' ∈ s'.runs.rows) : x'.waiting = false := by
  unfold completeAttempt at h
  rw [if_pos hstate] at h
  obtain ⟨-, h⟩ := Except.guard_eq_ok.mp h
  rcases completeUnconfirmed_candidates h with rfl | ⟨q', hq', hfailed⟩
  · exact hw x'.jobId (jobQuarantined_iff.mpr ⟨r, hr, hrjob, hrq⟩) x' hx' rfl
  obtain rfl : q' = q := Option.some.inj (hq'.symm.trans hq)
  rcases hop.2 hstate q' hq with hreason | hnone
  · exact hfailed hreason x' hx' hjob.symm
  · rw [hnone x hx (hxjob.trans hjob.symm)] at hxw
    cases hxw

/-- **No operation leaves a candidate waiting for a job in quarantine**, under the condition. -/
theorem NoneWaiting.step (hs : Reachable settlesCandidates s)
    (hw : NoneWaiting s) (hop : settlesCandidates s op) (h : s.apply op = .ok s') :
    NoneWaiting s' := by
  have hcons := (hs.mono (fun _ _ => unmarkedRetries_of_settlesCandidates)).consistent
  have heffect := apply_effect hs.owned (permitted_candidatePermits hop) h
  intro job hjob x' hx' hxjob
  obtain ⟨q', hq', hqjob, hquarantined'⟩ := jobQuarantined_iff.mp hjob
  by_contra hwaiting
  simp only [Bool.not_eq_false] at hwaiting
  -- trace both rows back to the state before
  obtain ⟨q, hq, hqsame, horigin⟩ := (heffect q'.id).quarantine_origin (hcons q'.id)
    (Table.find_of_mem hq') hquarantined'
  have hwait := (heffect x'.id).waiting_origin (Table.find_of_mem hx') hwaiting
  have hsame : q.jobId = x'.jobId := hqsame.trans (hqjob.trans hxjob.symm)
  rcases horigin with hquarantined | ⟨c, rfl, hstate, hc⟩
  · have hbefore : s.jobQuarantined x'.jobId = true :=
      jobQuarantined_iff.mpr ⟨q, Table.mem_of_find hq, hsame, hquarantined⟩
    rcases hwait with ⟨x, hx, hxsame, hxw⟩ | ⟨hflag, hmay, -⟩ | ⟨x, _, hx, hxsame, hflag, hmay, -⟩
    · rw [hw x'.jobId hbefore x (Table.mem_of_find hx) hxsame] at hxw
      cases hxw
    · rw [hmay hflag] at hbefore
      cases hbefore
    · rw [← hxsame, hmay hflag] at hbefore
      cases hbefore
  · rcases hwait with ⟨x, hx, hxsame, hxw⟩ | ⟨-, -, hno⟩ | ⟨x, _, -, -, -, -, hretry⟩
    · have hnot := noneWaiting_of_unconfirmed hop hstate hw h hc hsame hq'
        (hqjob.trans hxjob.symm) hquarantined' (Table.mem_of_find hx) hxsame hxw hx'
      rw [hnot] at hwaiting
      cases hwaiting
    · exact hno c rfl
    · -- an unconfirmed completion is never a retry
      simp only [apply, completeAttempt, if_pos hstate, if_pos (hretry c rfl)] at h
      cases h

theorem Reachable.noneWaiting (h : Reachable settlesCandidates s) : NoneWaiting s := by
  induction h with
  | refl => exact fun _ hjob => by cases hjob
  | tail hs hlast ih =>
    obtain ⟨op, hop, happly⟩ := hlast
    exact ih.step hs hop happly

theorem released_by_acknowledgement (hs : Reachable settlesCandidates s)
    (h : s.apply op = .ok s') {r : RunRow} (hr : r ∈ s.runs.rows) (hq : r.quarantined = true) :
    (∃ r' ∈ s'.runs.rows, r'.id = r.id ∧ r'.quarantined = true) ∨
      ∃ now, op = .cancel r.id now true := by
  have hcons := (hs.mono (fun _ _ => unmarkedRetries_of_settlesCandidates)).consistent
  -- every step is permitted, but acknowledgements are marked with the operation
  have hpermitted : Permitted
      { Permits.all with acknowledge := fun r => ∃ now, op = .cancel r.id now true } s op := by
    refine permitted_of (fun _ _ _ _ => trivial)
      (fun _ _ => ⟨fun _ _ _ => trivial, fun _ _ _ => trivial, fun _ _ _ => trivial⟩)
      (fun run now x hop hx => ⟨now, ?_⟩)
    rw [hop, show x.id = run from Table.key_of_find hx]
  rcases (apply_effect hs.owned hpermitted h r.id).keeps_quarantine (hcons r.id)
    (Table.find_of_mem hr) hq with ⟨r', hr', hq'⟩ | hack
  · exact Or.inl ⟨r', Table.mem_of_find hr', Table.key_of_find hr', hq'⟩
  · exact Or.inr hack

theorem not_admitted_of_quarantined {prepared : Uuid → Option Snapshot}
    {lifetime : Uuid} {now : Int} {guard : Nat} {admitted : List (RunRow × Nat)}
    (h : s.admitRuns prepared lifetime now guard = .ok (admitted, s')) {x : RunRow × Nat}
    (hx : x ∈ admitted) : s.jobQuarantined x.1.jobId = false := by
  rcases admitRuns_ok h with ⟨rfl, -⟩ | ⟨selected, heligible, -, rfl, -⟩
  · cases hx
  obtain ⟨r, hr, rfl⟩ := List.mem_map.mp hx
  have hel := (heligible r hr).2.1
  simp only [eligible, Bool.and_eq_true, Bool.not_eq_true'] at hel
  exact hel.1.1.2

/-- **Quarantine holds** in every run of operations that meets the condition: no run of the job is
admitted, only an acknowledgement releases the run, and no candidate waits. -/
theorem quarantine_holds {s : Store} (h : Reachable settlesCandidates s) :
    (∀ prepared lifetime now guard admitted s',
      s.admitRuns prepared lifetime now guard = .ok (admitted, s') →
        ∀ x ∈ admitted, s.jobQuarantined x.1.jobId = false) ∧
    (∀ op s', s.apply op = .ok s' → ∀ r ∈ s.runs.rows, r.quarantined = true →
      (∃ r' ∈ s'.runs.rows, r'.id = r.id ∧ r'.quarantined = true) ∨
        ∃ now, op = .cancel r.id now true) ∧
    ∀ job, s.jobQuarantined job = true → ∀ r ∈ s.runs.rows, r.jobId = job →
      ¬ (r.replacementCandidate = true ∧ r.state.isPending = true) := by
  refine ⟨fun _ _ _ _ _ _ hadmits _ hx => not_admitted_of_quarantined hadmits hx, ?_, ?_⟩
  · intro op s' happly r hr hq
    exact released_by_acknowledgement h happly hr hq
  · rintro job hjob r hr hrjob ⟨hflag, hpending⟩
    have hw := h.noneWaiting job hjob r hr hrjob
    simp [RunRow.waiting, hflag, hpending] at hw

def replacedJob : Snapshot :=
  .job ⟨.every 3600000000 0, { ExecutionPolicy.default with overlap := .replace }, .retain, "true"⟩

/-- A running run and a replacement that waits for it. If `cancelled` is set, the user asks the run
to stop before the replacement does. The termination of the run is not confirmed. -/
def unconfirmedPredecessor (cancelled : Bool) : List Op :=
  [.createJob ⟨1, "job", none, "[]", true, replacedJob, 0, 0⟩,
   .beginLifetime 2 0,
   .enqueueManual 1 1 replacedJob 3 0,
   .admitRuns (fun _ => some replacedJob) 2 0 1,
   .markAttemptRunning 3 1 0 none] ++ (if cancelled then [.cancel 3 1 false] else []) ++
  [.enqueueManual 1 1 replacedJob 4 2]

def unconfirmedCompletion : AttemptCompletion :=
  ⟨3, 1, 3, 3, .terminationUnconfirmed, none, none, none, "process group survived", none⟩

/-- After a cancellation by the user, the replacement keeps waiting for a job in quarantine. -/
theorem candidate_waits_in_quarantine :
    ∃ s, Reachable anyOp s ∧ s.jobQuarantined 1 = true ∧
      ∃ r ∈ s.runs.rows, r.jobId = 1 ∧ r.replacementCandidate = true ∧ r.state = .queued := by
  exact exists_reachable anyOp
    (unconfirmedPredecessor true ++ [.completeAttempt unconfirmedCompletion]) _
    (fun _ _ _ => trivial) (by decide +kernel)

/-- Without it, the replacement fails with the quarantine. -/
theorem quarantine_holds_replaced :
    ∃ s, Reachable settlesCandidates s ∧ s.jobQuarantined 1 = true ∧
      ∀ r ∈ s.runs.rows, r.jobId = 1 →
        ¬ (r.replacementCandidate = true ∧ r.state.isPending = true) := by
  obtain ⟨s, hs, hreason, s', happly, hquarantined⟩ := exists_reachable settlesCandidates
    (unconfirmedPredecessor false)
    (fun s => (∀ r, s.runs.find 3 = some r → r.cancellationReason = some "replacement") ∧
      ∃ s', s.apply (.completeAttempt unconfirmedCompletion) = .ok s' ∧ s'.jobQuarantined 1 = true)
    (by simp [unconfirmedPredecessor, settlesCandidates]) (by decide +kernel)
  have hs' : Reachable settlesCandidates s' := by
    refine hs.tail ⟨.completeAttempt unconfirmedCompletion, ⟨?_, ?_⟩, happly⟩
    · intro hretry
      cases hretry
    · exact fun _ r hr => Or.inl (hreason r hr)
  exact ⟨s', hs', hquarantined, (quarantine_holds hs').2.2 1 hquarantined⟩

end Store

end Locron
