import Locron.Store.Settle

set_option autoImplicit false

/-! # References between the tables

The columns that identify a run never change (`RunStep.origin`). From this follow the invariants
that foreign keys and sequences are for: the job of a run exists, every cursor belongs to a
revision, queue sequences are below the next one, and no catch-up run is a candidate.
-/

namespace Locron

/-! ## Identity of runs -/

/-- The run is the same, and a candidate only if it was one. -/
structure RunRow.Continues (r r' : RunRow) : Prop extends RunRow.SameRun r r' where
  candidate : r'.replacementCandidate = true → r.replacementCandidate = true

namespace RunRow.Continues

variable {r r' r'' : RunRow}

theorem refl (r : RunRow) : Continues r r := ⟨.refl r, fun hc => hc⟩

theorem trans (h : Continues r r') (h' : Continues r' r'') : Continues r r'' :=
  ⟨h.toSameRun.trans h'.toSameRun, fun hc => h.candidate (h'.candidate hc)⟩

/-- A change of other columns that withdraws the candidacy or leaves it. -/
theorem of_eq (hid : SameRun r r') (h : r'.replacementCandidate = r.replacementCandidate ∨
    r'.replacementCandidate = false) : Continues r r' := by
  refine ⟨hid, fun hc => ?_⟩
  rcases h with h | h
  · rwa [h] at hc
  · rw [h] at hc
    cases hc

end RunRow.Continues

theorem RunRow.continues_makeRoom (job : Uuid) (now : Int) (r : RunRow) :
    RunRow.Continues r (r.makeRoom job now) := by
  refine ⟨r.sameRun_makeRoom job now, ?_⟩
  unfold RunRow.makeRoom
  split
  · exact fun hc => by cases hc
  split
  · exact fun hc => by cases hc
  · exact fun hc => hc

/-- Where a row comes from: it continues the one before, or a new one. -/
def RowOrigin (permits : Permits) (v : RunView) (r' : RunRow) : Prop :=
  (∃ r, v.run = some r ∧ r.Continues r') ∨ ∃ row, permits.insert row ∧ row.Continues r'

theorem OverlapStep.origin {permits : Permits} {id : Uuid} {v v' : RunView}
    (h : Relation.ReflTransGen (OverlapStep permits id) v v') {r' : RunRow}
    (hr' : v'.run = some r') : RowOrigin permits v r' := by
  induction h generalizing r' with
  | refl => exact Or.inl ⟨r', hr', .refl r'⟩
  | tail _ hlast ih =>
    -- the step before the last one, continued
    have hafter : ∀ r : RunRow, RowOrigin permits v r → r.Continues r' →
        RowOrigin permits v r' := by
      rintro r (⟨r₀, hr₀, hcont⟩ | ⟨row, hmay, hcont⟩) hstep
      · exact Or.inl ⟨r₀, hr₀, hcont.trans hstep⟩
      · exact Or.inr ⟨row, hmay, hcont.trans hstep⟩
    cases hlast with
    | insert r hid hnew hmay =>
      cases hr'
      exact Or.inr ⟨r', hmay, .refl r'⟩
    | supersede r | requestReplacement r =>
      cases hr'
      exact hafter r (ih rfl) (.of_eq ⟨rfl, rfl, rfl, rfl, rfl, rfl, rfl⟩ (Or.inr rfl))

/-- **No operation changes what identifies a run.** -/
theorem RunStep.origin {permits : Permits} {id : Uuid} {v v' : RunView}
    (h : RunStep permits id v v') {r' : RunRow} (hr' : v'.run = some r') :
    RowOrigin permits v r' := by
  cases h with
  | keep => exact Or.inl ⟨r', hr', .refl r'⟩
  | overlap h => exact OverlapStep.origin h hr'
  | preExecution r number now reason hactive =>
    cases hr'
    refine Or.inl ⟨r, rfl, ?_⟩
    split
    · exact .of_eq ⟨rfl, rfl, rfl, rfl, rfl, rfl, rfl⟩ (Or.inl rfl)
    · exact .refl r
  | runnerFailure r r₁ attempts' number now duration reason started hrun hattempts happlied =>
    cases hr'
    refine Or.inl ⟨r, rfl, ?_⟩
    rw [hrun]
    split
    · exact .of_eq ⟨rfl, rfl, rfl, rfl, rfl, rfl, rfl⟩ (Or.inr rfl)
    · exact .refl r
  | interrupt _ now =>
    obtain ⟨r, hr, rfl⟩ := Option.map_eq_some_iff.mp hr'
    refine Or.inl ⟨r, hr, ?_⟩
    split
    · exact .of_eq ⟨rfl, rfl, rfl, rfl, rfl, rfl, rfl⟩ (Or.inl rfl)
    · exact .refl r
  | delete r hterminal hmay => cases hr'
  | start r | ready r | complete r | retry r | quarantine r | requestCancellation r =>
    cases hr'
    exact Or.inl ⟨r, rfl, .of_eq ⟨rfl, rfl, rfl, rfl, rfl, rfl, rfl⟩ (Or.inl rfl)⟩
  | cancelBeforeSpawn r | failCandidate r | cancelPending r | acknowledge r =>
    cases hr'
    exact Or.inl ⟨r, rfl, .of_eq ⟨rfl, rfl, rfl, rfl, rfl, rfl, rfl⟩ (Or.inr rfl)⟩

/-! ## Kinds of operations -/

/-- The operations on definitions. -/
def Op.edits : Op → Bool
  | .createJob _ | .updateJob _ | .applyImport _ | .setEnabled _ _ _ | .removeJob _ _ => true
  | _ => false

namespace Store

theorem continues_of_not_queues {s s' : Store} {op : Op} (howned : s.Owned)
    (hop : op.queues = false) (h : s.apply op = .ok s') {r' : RunRow} (hr' : r' ∈ s'.runs.rows) :
    ∃ r ∈ s.runs.rows, r.Continues r' := by
  have hpermitted : Permitted { Permits.all with insert := fun _ => False } s op :=
    permitted_of (fun hqueues => by rw [hop] at hqueues; cases hqueues)
  rcases (apply_effect howned hpermitted h r'.id).origin (Table.find_of_mem hr') with
    ⟨r, hr, hcont⟩ | ⟨row, hno, -⟩
  · exact ⟨r, Table.mem_of_find hr, hcont⟩
  · cases hno

/-- Operations that are told nothing about jobs tell the jobs of all runs they finish. -/
def TellsRuns (s : Store) : Op → Prop
  | .completeAttempt c => s.TellsCandidates c
  | .completeRunnerFailure run number _ _ _ => s.TellsRunnerFailure run number
  | _ => True

/-- What an operation does to definitions, if it neither edits them nor inserts runs. -/
theorem apply_settles {s s' : Store} {op : Op} (hedits : op.edits = false)
    (hqueues : op.queues = false) (h : s.apply op = .ok s') :
    ∃ finished, Settles finished s s' ∧ (s.TellsRuns op → Lists finished s s') := by
  have hany : (∃ finished, Settles finished s s' ∧ Lists finished s s') →
      ∃ finished, Settles finished s s' ∧ (s.TellsRuns op → Lists finished s s') :=
    fun ⟨finished, hsettles, hlists⟩ => ⟨finished, hsettles, fun _ => hlists⟩
  have hsame : SameTables s s' →
      ∃ finished, Settles finished s s' ∧ (s.TellsRuns op → Lists finished s s') :=
    fun htables => hany (settles_of_sameTables htables)
  cases op with
  | createJob | updateJob | applyImport | setEnabled | removeJob => cases hedits
  | enqueueManual | materialize => cases hqueues
  | setGlobalConcurrency value =>
    simp only [apply, setGlobalConcurrency] at h
    split at h <;> cases h
    exact hsame ⟨⟨rfl, rfl, rfl⟩, rfl, rfl⟩
  | setRunRetentionCount value =>
    simp only [apply, setRunRetentionCount] at h
    split at h <;> cases h
    exact hsame ⟨⟨rfl, rfl, rfl⟩, rfl, rfl⟩
  | setRunRetentionAge value =>
    simp only [apply, setRunRetentionAge] at h
    split at h <;> cases h
    exact hsame ⟨⟨rfl, rfl, rfl⟩, rfl, rfl⟩
  | cancel run now acknowledge =>
    obtain ⟨⟨outcome, s₁⟩, hs₁, rfl⟩ := Except.map_eq_ok.mp h
    exact hany (cancelWithAcknowledgement_settles hs₁)
  | beginLifetime id now =>
    obtain ⟨⟨stale, s₁⟩, hs₁, rfl⟩ := Except.map_eq_ok.mp h
    exact hany (beginLifetime_settles hs₁)
  | endLifetime id now =>
    cases h
    exact hsame ⟨⟨rfl, rfl, rfl⟩, rfl, rfl⟩
  | admitRuns prepared lifetime now guard =>
    obtain ⟨⟨admitted, s₁⟩, hs₁, rfl⟩ := Except.map_eq_ok.mp h
    exact hany (admitRuns_settles hs₁)
  | markAttemptRunning run number now executable =>
    obtain ⟨⟨decision, s₁⟩, hs₁, rfl⟩ := Except.map_eq_ok.mp h
    exact hany (markAttemptRunning_settles hs₁)
  | completeAttempt c => exact completeAttempt_settles h
  | completePreExecutionFailure run number output now reason =>
    exact hany (completePreExecutionFailure_settles h)
  | completeRunnerFailure run number now reason mayHaveStarted =>
    exact completeRunnerFailure_settles h
  | reconcileOutputFinalized output now =>
    simp only [apply, reconcileOutputFinalized] at h
    split at h
    · obtain ⟨-, h⟩ := Except.guard_eq_ok.mp h
      cases h
      exact hsame ⟨⟨rfl, rfl, rfl⟩, rfl, rfl⟩
    · split at h <;> cases h
      exact hsame (.refl s)
  | reconcileOutputMissing run number now =>
    simp only [apply, reconcileOutputMissing] at h
    split at h
    · cases h
      exact hsame ⟨⟨rfl, rfl, rfl⟩, rfl, rfl⟩
    · split at h <;> cases h
      exact hsame (.refl s)
  | markOutputPrunePending run number now =>
    simp only [apply, markOutputPrunePending] at h
    split at h <;> cases h
    exact hsame ⟨⟨rfl, rfl, rfl⟩, rfl, rfl⟩
  | finishOutputPrune run number now =>
    simp only [apply, finishOutputPrune] at h
    split at h
    · cases h
      exact hsame ⟨⟨rfl, rfl, rfl⟩, rfl, rfl⟩
    · split at h <;> cases h
      exact hsame (.refl s)
  | markRunRetentionPending candidate now =>
    simp only [apply, markRunRetentionPending] at h
    split at h
    · split at h <;> cases h
      · exact hsame (.refl s)
      · exact hsame ⟨⟨rfl, rfl, rfl⟩, rfl, rfl⟩
    · cases h
  | finishRunRetention candidate => exact hany (finishRunRetention_settles h)

/-! ## The invariants -/

/-- The job is in the table, removed or not. -/
def knows (s : Store) (job : Uuid) : Bool := (s.jobs.find job).isSome

structure Linked (s : Store) : Prop where
  job : ∀ r ∈ s.runs.rows, s.knows r.jobId = true
  sequence : ∀ r ∈ s.runs.rows, r.queueSequence < s.nextQueueSequence
  candidate : ∀ r ∈ s.runs.rows, r.replacementCandidate = true → r.trigger ≠ .catchUp
  cursor : ∀ key c, s.cursors.find key = some c →
    s.knows key.1 = true ∧ (s.revisions.find key).isSome = true

namespace Linked

variable {s s' : Store}

/-- New definitions do not matter as long as the old ones stay. -/
theorem of_continues (h : s.Linked) (hknows : ∀ id, s.knows id = true → s'.knows id = true)
    (hrows : ∀ r' ∈ s'.runs.rows, ∃ r ∈ s.runs.rows, r.Continues r')
    (hsequence : s.nextQueueSequence ≤ s'.nextQueueSequence)
    (hcursor : ∀ key c, s'.cursors.find key = some c →
      s'.knows key.1 = true ∧ (s'.revisions.find key).isSome = true) : s'.Linked := by
  refine ⟨?_, ?_, ?_, hcursor⟩
  · intro r' hr'
    obtain ⟨r, hr, hcont⟩ := hrows r' hr'
    rw [hcont.jobId]
    exact hknows _ (h.job r hr)
  · intro r' hr'
    obtain ⟨r, hr, hcont⟩ := hrows r' hr'
    rw [hcont.queueSequence]
    exact lt_of_lt_of_le (h.sequence r hr) hsequence
  · intro r' hr' hc
    obtain ⟨r, hr, hcont⟩ := hrows r' hr'
    rw [hcont.trigger]
    exact h.candidate r hr (hcont.candidate hc)

/-- The rows after an insertion: old ones that continue, and perhaps a new one. -/
theorem of_insert (h : s.Linked) (hkeeps : KeepsDefinitions s s')
    (hsequence : s'.nextQueueSequence = s.nextQueueSequence + 1) {job : Uuid} {now : Int}
    {candidate : Bool} {new : List RunRow}
    (hrows : s'.runs.rows = s.roomRows job now candidate ++ new)
    (hnew : ∀ row ∈ new, s.runReferences row = true ∧ row.queueSequence = s.nextQueueSequence ∧
      (row.replacementCandidate = true → row.trigger ≠ .catchUp)) : s'.Linked := by
  have hknows : ∀ id, s'.knows id = s.knows id := by
    intro id
    simp only [knows, hkeeps.jobs]
  have hold : ∀ r' ∈ s.roomRows job now candidate, ∃ r ∈ s.runs.rows, r.Continues r' := by
    intro r' hr'
    obtain ⟨r, hr, rfl⟩ := of_mem_roomRows hr'
    refine ⟨r, hr, ?_⟩
    split
    · exact r.continues_makeRoom job now
    · exact .refl r
  refine ⟨?_, ?_, ?_, ?_⟩
  · intro r' hr'
    rw [hrows] at hr'
    rw [hknows]
    rcases List.mem_append.mp hr' with hr' | hr'
    · obtain ⟨r, hr, hcont⟩ := hold r' hr'
      rw [hcont.jobId]
      exact h.job r hr
    have hreferences := (hnew r' hr').1
    simp only [runReferences, Bool.and_eq_true] at hreferences
    exact hreferences.1
  · intro r' hr'
    rw [hrows] at hr'
    rcases List.mem_append.mp hr' with hr' | hr'
    · obtain ⟨r, hr, hcont⟩ := hold r' hr'
      have hlt := h.sequence r hr
      rw [hcont.queueSequence]
      omega
    · rw [(hnew r' hr').2.1]
      omega
  · intro r' hr' hc
    rw [hrows] at hr'
    rcases List.mem_append.mp hr' with hr' | hr'
    · obtain ⟨r, hr, hcont⟩ := hold r' hr'
      rw [hcont.trigger]
      exact h.candidate r hr (hcont.candidate hc)
    · exact (hnew r' hr').2.2 hc
  · intro key c hc
    rw [hkeeps.cursors] at hc
    rw [hknows, hkeeps.revisions]
    exact h.cursor key c hc

theorem of_sameTables (h : s.Linked) (hsame : SameTables s s') : s'.Linked := by
  have hknows : ∀ id, s'.knows id = s.knows id := by
    intro id
    simp only [knows, hsame.jobs]
  refine h.of_continues (fun id hid => (hknows id).trans hid) ?_
    (le_of_eq hsame.nextQueueSequence.symm) ?_
  · intro r' hr'
    rw [hsame.runs] at hr'
    exact ⟨r', hr', .refl r'⟩
  · intro key c hc
    rw [hsame.cursors] at hc
    rw [hknows, hsame.revisions]
    exact h.cursor key c hc

theorem of_addsRevision {job : Uuid} {revision : Nat} {definition : Snapshot} {cursor : Int}
    {enabled : Bool} {now : Int} (h : s.Linked)
    (hadds : AddsRevision job revision definition cursor enabled now s s')
    (hknows : ∀ id, s.knows id = true → s'.knows id = true) (hjob : s'.knows job = true) :
    s'.Linked := by
  obtain ⟨origin, hrevisions⟩ := hadds.revisions
  refine h.of_continues hknows ?_ (le_of_eq hadds.nextQueueSequence.symm) ?_
  · intro r' hr'
    rw [hadds.runs] at hr'
    exact ⟨r', hr', .refl r'⟩
  · intro key c hc
    rw [hadds.cursors] at hc
    rw [hrevisions]
    split at hc
    · next hkey =>
      subst hkey
      exact ⟨hjob, by simp⟩
    next hkey =>
    obtain ⟨hknown, hsome⟩ := h.cursor key c hc
    exact ⟨hknows _ hknown, by rw [if_neg hkey]; exact hsome⟩

theorem editStep (h : s.Linked) (hstep : EditStep s s') : s'.Linked := by
  cases hstep with
  | create job now hcreated =>
    refine h.of_addsRevision hcreated.toAddsRevision ?_ ?_
    · intro id hid
      simp only [knows, hcreated.jobs]
      split
      · rfl
      · exact hid
    · simp [knows, hcreated.jobs]
  | revise job now hrevised =>
    have hknows : ∀ id, s'.knows id = s.knows id := by
      intro id
      simp [knows, hrevised.jobs]
    refine h.of_addsRevision hrevised.toAddsRevision (fun id hid => (hknows id).trans hid) ?_
    obtain ⟨j, hj, -⟩ := hrevised.live
    rw [hknows, knows, (Option.filter_eq_some_iff.mp hj).1]
    rfl

theorem edits (h : s.Linked) (hedits : Relation.ReflTransGen EditStep s s') : s'.Linked := by
  induction hedits with
  | refl => exact h
  | tail _ hlast ih => exact ih.editStep hlast

theorem of_columns (h : s.Linked) (hruns : s'.runs = s.runs)
    (hsequence : s'.nextQueueSequence = s.nextQueueSequence)
    (hrevisions : s'.revisions = s.revisions) {f : JobRow → JobRow}
    {g : Uuid × Nat → CursorRow → CursorRow}
    (hjobs : ∀ id, s'.jobs.find id = (s.jobs.find id).map f)
    (hcursors : ∀ key, s'.cursors.find key = (s.cursors.find key).map (g key)) : s'.Linked := by
  have hknows : ∀ id, s'.knows id = s.knows id := by
    intro id
    simp [knows, hjobs]
  refine h.of_continues (fun id hid => (hknows id).trans hid) ?_ (le_of_eq hsequence.symm) ?_
  · intro r' hr'
    rw [hruns] at hr'
    exact ⟨r', hr', .refl r'⟩
  · intro key c' hc'
    rw [hcursors] at hc'
    obtain ⟨c, hc, -⟩ := Option.map_eq_some_iff.mp hc'
    rw [hknows, hrevisions]
    exact h.cursor key c hc

theorem advanceCursor {job : Uuid} {cursor : CursorUpdate} {now : Int} (h : s.Linked)
    (hcursor : s.advanceCursor job cursor now = .ok s') : s'.Linked := by
  obtain ⟨-, hsame, hsequence, hrevisions, hjobs, hcursors⟩ := advanceCursor_ok hcursor
  exact h.of_columns hsame hsequence hrevisions hjobs hcursors

theorem materializeRun {now : Int} {run : NewScheduledRun} {policy : SnapshotAdmissionPolicy}
    {inserted : Bool} (h : s.Linked) (hrun : s.materializeRun now run policy = .ok (inserted, s')) :
    s'.Linked := by
  obtain ⟨hkeeps, hsequence, -, hreferences, hrows⟩ := materializeRun_ok hrun
  refine h.of_insert hkeeps hsequence hrows ?_
  intro row hrow
  split at hrow
  · next hinserted =>
    rw [List.mem_singleton.mp hrow]
    refine ⟨hreferences hinserted, rfl, ?_⟩
    intro hc
    have hmeets := (overlapDecision_candidate.mp hc).2.1
    show run.trigger ≠ .catchUp
    simpa using hmeets
  · cases hrow

theorem apply {op : Op} (howned : s.Owned) (h : s.Linked) (happly : s.apply op = .ok s') :
    s'.Linked := by
  cases hedits : op.edits with
  | true =>
    cases op with
    | createJob job => exact h.editStep (.create job job.now (createJob_ok happly))
    | updateJob job => exact h.editStep (.revise job job.now (updateJob_ok happly))
    | applyImport batch =>
      obtain ⟨s₁, hsteps, hsame⟩ := applyImport_ok happly
      exact (h.edits hsteps).of_sameTables hsame
    | setEnabled job enabled now =>
      obtain ⟨j, -, hruns, hsequence, hrevisions, hjobs, hcursors⟩ := setEnabled_ok happly
      exact h.of_columns hruns hsequence hrevisions hjobs hcursors
    | removeJob job now =>
      obtain ⟨hruns, hsequence, hrevisions, hcursors, hjobs⟩ := removeJob_ok happly
      exact h.of_columns hruns hsequence hrevisions (g := fun _ c => c) hjobs
        (fun key => by rw [hcursors, Option.map_id'])
    | _ => cases hedits
  | false =>
    cases hqueues : op.queues with
    | true =>
      cases op with
      | enqueueManual job revision snapshot run now =>
        obtain ⟨policy, -, hkeeps, hsequence, -, hreferences, hrows⟩ :=
          enqueueManual_ok happly
        refine h.of_insert hkeeps hsequence hrows ?_
        intro row hrow
        rw [List.mem_singleton.mp hrow]
        exact ⟨hreferences, rfl, fun _ => by simp [manualRunRow]⟩
      | materialize job cursor runs summaries now =>
        obtain ⟨⟨result, s₁⟩, hs₁, rfl⟩ := Except.map_eq_ok.mp happly
        obtain ⟨prepared, s₂, s₃, -, hcursor, hruns, rfl⟩ := materialize_ok hs₁
        have hlinked₃ : s₃.Linked := materializeRuns_induction
          (fun _ hs hrun => hs.materializeRun hrun) (h.advanceCursor hcursor) hruns
        obtain ⟨hkeeps, hsame', hsequence'⟩ := recordSummaries_keeps s₃ job summaries now
        exact hlinked₃.of_sameTables ⟨hkeeps, hsame', hsequence'⟩
      | _ => cases hqueues
    | false =>
      obtain ⟨finished, hsettles, -⟩ := apply_settles hedits hqueues happly
      obtain ⟨now, hjobs⟩ := hsettles.jobs
      have hknows : ∀ id, s'.knows id = s.knows id := by
        intro id
        simp [knows, hjobs]
      refine h.of_continues (fun id hid => (hknows id).trans hid)
        (fun r' hr' => continues_of_not_queues howned hqueues happly hr')
        (le_of_eq hsettles.nextQueueSequence.symm) ?_
      intro key c hc
      rw [hsettles.cursors] at hc
      rw [hknows, hsettles.revisions]
      exact h.cursor key c hc

end Linked

/-- **All references hold in every reachable state.** -/
theorem Reachable.linked {allowed : Store → Op → Prop} {s : Store} (h : Reachable allowed s) :
    s.Linked := by
  induction h with
  | refl =>
    refine ⟨?_, ?_, ?_, ?_⟩
    · exact fun r hr => by cases hr
    · exact fun r hr => by cases hr
    · exact fun r hr => by cases hr
    · exact fun key c hc => by cases hc
  | tail hs hlast ih =>
    obtain ⟨op, -, happly⟩ := hlast
    exact ih.apply (Reachable.owned hs) happly

end Store

end Locron
