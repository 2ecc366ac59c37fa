import Locron.Store.References

set_option autoImplicit false

/-! # Delete after run

A one-time job may ask to be removed once its occurrence is terminal. The operations that complete
or cancel a run do this in their transaction. Not so the ones that finish other runs than the one
they are about: an occurrence that is terminal when it is inserted, a pending run that gives way to
a replacement, a candidate that fails with a quarantine, and a runner failure that finds its output
closed. The run is then terminal and the job stays.
-/

namespace Locron

/-! ## Finish times -/

def RunRow.Stamped (r : RunRow) : Prop := r.state.isTerminal = true → r.finishedAt.isSome = true

def RunView.Stamped (v : RunView) : Prop := ∀ r, v.run = some r → r.Stamped

theorem OverlapStep.stamped {permits : Permits} {id : Uuid} {v v' : RunView}
    (h : OverlapStep permits id v v') (hv : v.Stamped) : v'.Stamped := by
  cases h with
  | insert r hid hnew hmay =>
    rintro _ ⟨⟩ hterminal
    rcases hnew.state with ⟨hstate, -, -⟩ | ⟨-, hfinished⟩
    · rw [hstate] at hterminal
      cases hterminal
    · exact hfinished
  | supersede r now hpending =>
    rintro _ ⟨⟩ -
    rfl
  | requestReplacement r now hlive =>
    rintro _ ⟨⟩
    exact hv r rfl

theorem RunStep.stamped {permits : Permits} {id : Uuid} {v v' : RunView} (hv : v.Stamped)
    (h : RunStep permits id v v') : v'.Stamped := by
  cases h with
  | keep => exact hv
  | overlap h =>
    induction h with
    | refl => exact hv
    | tail _ hlast ih => exact hlast.stamped ih
  | preExecution r number now reason hactive =>
    rintro _ ⟨⟩
    split
    · exact fun _ => rfl
    · exact hv r rfl
  | runnerFailure r r' attempts' number now duration reason started hrun hattempts happlied =>
    rintro _ ⟨⟩
    rw [hrun]
    split
    · exact fun _ => rfl
    · exact hv r rfl
  | interrupt _ now =>
    intro r' hr'
    obtain ⟨r, hr, rfl⟩ := Option.map_eq_some_iff.mp hr'
    split
    · exact fun _ => rfl
    · exact hv r hr
  | requestCancellation r now hlive =>
    rintro _ ⟨⟩
    exact hv r rfl
  | delete r hterminal hmay => rintro _ ⟨⟩
  | start | ready | retry | quarantine =>
    rintro _ ⟨⟩ hterminal
    cases hterminal
  | _ =>
    rintro _ ⟨⟩ -
    rfl

theorem Store.Reachable.stamped {allowed : Store → Op → Prop} {s : Store} (h : Reachable allowed s)
    {r : RunRow} (hr : r ∈ s.runs.rows) : r.Stamped :=
  h.view_induction (fun s op _ => permitted_all s op) (motive := RunView.Stamped)
    (fun _ h => by cases h) RunStep.stamped r.id r (Table.find_of_mem hr)

/-! ## The condition -/

/-- A scheduled or catch-up occurrence of a definition that asks for the job's deletion. -/
def NewScheduledRun.deletesJob (run : NewScheduledRun) : Bool :=
  (Store.newRunRow run 0 .queue 0).deletesJob

theorem RunRow.SameRun.deletesJob {r r' : RunRow} (h : r.SameRun r') :
    r'.deletesJob = r.deletesJob := by
  simp only [RunRow.deletesJob, h.trigger, h.snapshot]

namespace Store

def removed (s : Store) (job : Uuid) : Bool := (s.jobs.find job).any (fun j => j.removedAt.isSome)

/-- A new run with this snapshot replaces the unfinished ones of the job. -/
def replaces (s : Store) (job : Uuid) (snapshot : Snapshot) : Prop :=
  ∃ policy, snapshotAdmissionPolicy snapshot = .ok policy ∧ policy.overlap = .replace ∧
    s.jobQuarantined job = false

/-- No pending run that deletes the job would give way to a replacement. -/
def NoneGivesWay (s : Store) (job : Uuid) : Prop :=
  ∀ r ∈ s.runs.rows, r.jobId = job → r.superseded = true → r.deletesJob = false

/-- A run that deletes its job is not finished in passing: its occurrence comes alone and is queued,
no replacement makes it give way, it does not fail as a candidate, and a runner failure finds its
attempt and output open. -/
def tellsJobs (s : Store) : Op → Prop
  | .enqueueManual job _ snapshot _ _ => s.replaces job snapshot → s.NoneGivesWay job
  | .materialize job _ runs _ _ =>
    (∀ run ∈ runs, run.deletesJob = true → runs = [run] ∧
      ∀ policy, snapshotAdmissionPolicy run.snapshot = .ok policy →
        (s.decision job (run.trigger != .catchUp) policy).state = .queued) ∧
    ∀ run ∈ runs, s.replaces job run.snapshot → s.NoneGivesWay job
  | op => s.TellsRuns op

/-! ## Queueing -/

variable {s : Store} {job : Uuid}

theorem replaces_of_candidate {meetsOverlap : Bool} {snapshot : Snapshot}
    {policy : SnapshotAdmissionPolicy} (hpolicy : snapshotAdmissionPolicy snapshot = .ok policy)
    (h : (s.decision job meetsOverlap policy).candidate = true) : s.replaces job snapshot := by
  obtain ⟨hquarantined, -, -, hreplace⟩ := overlapDecision_candidate.mp h
  exact ⟨policy, hpolicy, hreplace, hquarantined⟩

variable {now : Int}

/-- Where nothing gives way, making room changes no state of a run that deletes its job. -/
theorem state_of_mem_roomRows {candidate : Bool}
    (hnone : candidate = true → s.NoneGivesWay job) {r' : RunRow}
    (hr' : r' ∈ s.roomRows job now candidate) (hdelete : r'.deletesJob = true) :
    ∃ r ∈ s.runs.rows, r.Continues r' ∧ r'.state = r.state := by
  obtain ⟨r, hr, rfl⟩ := of_mem_roomRows hr'
  refine ⟨r, hr, ?_⟩
  split
  · next hc =>
    refine ⟨r.continues_makeRoom job now, ?_⟩
    rw [if_pos hc, (r.sameRun_makeRoom job now).deletesJob] at hdelete
    unfold RunRow.makeRoom
    split
    · next hgives =>
      simp only [Bool.and_eq_true, decide_eq_true_eq] at hgives
      rw [hnone hc r hr hgives.1 hgives.2] at hdelete
      cases hdelete
    · split
      · rfl
      · rfl
  · exact ⟨.refl r, rfl⟩

variable {s' : Store}

/-- The quarantines of a state are still there after an occurrence. -/
theorem jobQuarantined_materializeRun {run : NewScheduledRun}
    {policy : SnapshotAdmissionPolicy} {inserted : Bool}
    (h : s.materializeRun now run policy = .ok (inserted, s'))
    (hjob : s.jobQuarantined job = true) : s'.jobQuarantined job = true := by
  obtain ⟨-, -, -, -, hrows⟩ := materializeRun_ok h
  simp only [jobQuarantined, Table.exist_iff, Bool.and_eq_true, decide_eq_true_eq] at hjob ⊢
  obtain ⟨r, hr, hrjob, hq⟩ := hjob
  have hmem := mem_roomRows hr run.jobId now
    (s.decision run.jobId (run.trigger != .catchUp) policy).candidate
  refine ⟨_, by rw [hrows]; exact List.mem_append_left _ hmem, ?_⟩
  split
  · exact ⟨(r.sameRun_makeRoom run.jobId now).jobId.trans hrjob, RunRow.quarantined_makeRoom hq⟩
  · exact ⟨hrjob, hq⟩

def NoneFinished (s s' : Store) : Prop :=
  ∀ r' ∈ s'.runs.rows, r'.deletesJob = true → r'.state.isTerminal = true →
    ∃ r ∈ s.runs.rows, r.Continues r' ∧ r.state.isTerminal = true

section Batch

variable {s s₁ s' : Store} {job : Uuid} {now : Int}

/-- A batch without an occurrence that deletes the job. -/
theorem noneFinished_of_not_deletes (hruns : s₁.runs = s.runs)
    {prepared : List (NewScheduledRun × SnapshotAdmissionPolicy)} {result result' : MaterializedRun}
    (hjob : ∀ x ∈ prepared, x.1.jobId = job ∧ snapshotAdmissionPolicy x.1.snapshot = .ok x.2)
    (hkeeps : ∀ x ∈ prepared, x.1.deletesJob = false)
    (hnone : ∀ x ∈ prepared, s.replaces job x.1.snapshot → s.NoneGivesWay job)
    (h : s₁.materializeRuns now prepared result = .ok (result', s')) : NoneFinished s s' := by
  -- no occurrence of the batch changes the state of a run that deletes the job
  let motive : Store → Prop := fun t =>
    (s.jobQuarantined job = true → t.jobQuarantined job = true) ∧
      ∀ x ∈ t.runs.rows, x.deletesJob = true → ∃ r ∈ s.runs.rows, r.Continues x ∧ x.state = r.state
  have hbase : motive s₁ := by
    refine ⟨fun hq => by simpa only [jobQuarantined, hruns] using hq, ?_⟩
    intro x hx _
    rw [hruns] at hx
    exact ⟨x, hx, .refl x, rfl⟩
  have hstep : ∀ {t t' : Store} {run : NewScheduledRun} {policy : SnapshotAdmissionPolicy}
      {inserted : Bool}, (run, policy) ∈ prepared → motive t →
      t.materializeRun now run policy = .ok (inserted, t') → motive t' := by
    rintro t t' run policy inserted hmem ⟨hquarantined, hsame⟩ hrun
    obtain ⟨hrunJob, hpolicy⟩ := hjob _ hmem
    refine ⟨fun hq => jobQuarantined_materializeRun hrun (hquarantined hq), ?_⟩
    obtain ⟨-, -, -, -, hrows⟩ := materializeRun_ok hrun
    have hroom : (t.decision run.jobId (run.trigger != .catchUp) policy).candidate = true →
        t.NoneGivesWay run.jobId := by
      intro hc x hx hxjob hgives
      by_contra hdelete
      simp only [Bool.not_eq_false] at hdelete
      obtain ⟨r, hr, hcont, hstate⟩ := hsame x hx hdelete
      obtain ⟨p, hp, hreplace, hfree⟩ := replaces_of_candidate hpolicy hc
      have hfree' : s.jobQuarantined job = false := by
        by_contra hq
        have hstill := hquarantined (by simpa using hq)
        rw [← hrunJob, hfree] at hstill
        cases hstill
      have hgives' : r.superseded = true := by
        rw [← hgives]
        simp only [RunRow.superseded, hstate, hcont.trigger]
      have hno := hnone _ hmem ⟨p, hp, hreplace, hfree'⟩ r hr
        ((hcont.jobId.symm.trans hxjob).trans hrunJob) hgives'
      rw [hcont.toSameRun.deletesJob, hno] at hdelete
      cases hdelete
    intro x' hx' hdelete
    rw [hrows] at hx'
    rcases List.mem_append.mp hx' with hx' | hx'
    · obtain ⟨x, hx, hcont, hstate⟩ := state_of_mem_roomRows hroom hx' hdelete
      obtain ⟨r, hr, hcont', hstate'⟩ := hsame x hx (hcont.toSameRun.deletesJob ▸ hdelete)
      exact ⟨r, hr, hcont'.trans hcont, hstate.trans hstate'⟩
    split at hx'
    · rw [List.mem_singleton.mp hx'] at hdelete
      have hsame : run.deletesJob = true := hdelete
      rw [hkeeps _ hmem] at hsame
      cases hsame
    · cases hx'
  intro r' hr' hdelete hterminal
  obtain ⟨r, hr, hcont, hstate⟩ := (materializeRuns_induction hstep hbase h).2 r' hr' hdelete
  exact ⟨r, hr, hcont, hstate ▸ hterminal⟩

/-- A single occurrence that deletes the job and is queued. -/
theorem noneFinished_of_queued (hruns : s₁.runs = s.runs) {run : NewScheduledRun}
    {policy : SnapshotAdmissionPolicy} {result result' : MaterializedRun} (hjob : run.jobId = job)
    (hpolicy : snapshotAdmissionPolicy run.snapshot = .ok policy)
    (hqueued : (s.decision job (run.trigger != .catchUp) policy).state = .queued)
    (hnone : s.replaces job run.snapshot → s.NoneGivesWay job)
    (h : s₁.materializeRuns now [(run, policy)] result = .ok (result', s')) :
    NoneFinished s s' := by
  have hdecision : s₁.decision run.jobId (run.trigger != .catchUp) policy
      = s.decision job (run.trigger != .catchUp) policy := by
    simp only [decision, jobQuarantined, activeCount, hruns, hjob]
  have hone : ∃ inserted, s₁.materializeRun now run policy = .ok (inserted, s') := by
    unfold materializeRuns at h
    split at h
    · cases h
    · next hrun =>
      cases h
      exact ⟨true, hrun⟩
    next hrun =>
    cases h
    exact ⟨false, hrun⟩
  obtain ⟨inserted, hrun⟩ := hone
  obtain ⟨-, -, -, -, hrows⟩ := materializeRun_ok hrun
  rw [hdecision] at hrows
  have hroomRows : s₁.roomRows run.jobId now
      (s.decision job (run.trigger != .catchUp) policy).candidate
      = s.roomRows job now (s.decision job (run.trigger != .catchUp) policy).candidate := by
    simp only [roomRows, hruns, hjob]
  intro r' hr' hdelete hterminal
  rw [hrows, hroomRows] at hr'
  rcases List.mem_append.mp hr' with hr' | hr'
  · obtain ⟨r, hr, hcont, hstate⟩ := state_of_mem_roomRows
      (fun hc => hnone (replaces_of_candidate hpolicy hc)) hr' hdelete
    exact ⟨r, hr, hcont, hstate ▸ hterminal⟩
  split at hr'
  · rw [List.mem_singleton.mp hr'] at hterminal
    have hstate : (s.decision job (run.trigger != .catchUp) policy).state.isTerminal = true :=
      hterminal
    rw [hqueued] at hstate
    cases hstate
  · cases hr'

end Batch

theorem materialize_noneFinished {cursor : CursorUpdate}
    {runs : List NewScheduledRun} {summaries : List ReconciliationSummary}
    {result : MaterializedRun} (htells : s.tellsJobs (.materialize job cursor runs summaries now))
    (h : s.materializeWithSummaries job cursor runs summaries now = .ok (result, s')) :
    NoneFinished s s' := by
  obtain ⟨prepared, s₁, s₂, hprepared, hcursor, hruns, rfl⟩ := materialize_ok h
  obtain ⟨hmap, hall⟩ := of_preparePolicies hprepared
  have hsame : s₁.runs = s.runs := (advanceCursor_ok hcursor).2.1
  have hmem : ∀ x ∈ prepared, x.1 ∈ runs := by
    intro x hx
    rw [← hmap]
    exact List.mem_map.mpr ⟨x, hx, rfl⟩
  have hend : NoneFinished s s₂ → NoneFinished s (s₂.recordSummaries job summaries now) := by
    intro hfinished r' hr'
    rw [(recordSummaries_keeps s₂ job summaries now).2.1] at hr'
    exact hfinished r' hr'
  apply hend
  by_cases hdeletes : ∃ x ∈ prepared, x.1.deletesJob = true
  · -- a one-time occurrence is alone in its batch
    obtain ⟨⟨run, policy⟩, hx, hdelete⟩ := hdeletes
    obtain ⟨halone, hqueued⟩ := htells.1 run (hmem _ hx) hdelete
    obtain ⟨hjob, -, hpolicy⟩ := hall _ hx
    have hsingle : prepared = [(run, policy)] := by
      rw [halone] at hmap
      match prepared, hmap, hx with
      | [y], _, hx => rw [List.mem_singleton.mp hx]
      | [], hmap, _ => simp at hmap
      | _ :: _ :: _, hmap, _ => simp at hmap
    rw [hsingle] at hruns
    exact noneFinished_of_queued hsame hjob hpolicy (hqueued policy hpolicy)
      (htells.2 run (hmem _ hx)) hruns
  · push Not at hdeletes
    refine noneFinished_of_not_deletes hsame (fun x hx => ⟨(hall x hx).1, (hall x hx).2.2⟩) ?_ ?_
      hruns
    · intro x hx
      simpa using hdeletes x hx
    · intro x hx
      exact htells.2 x.1 (hmem x hx)

theorem enqueueManual_noneFinished {revision : Nat} {snapshot : Snapshot} {run : Uuid}
    (htells : s.tellsJobs (.enqueueManual job revision snapshot run now))
    (h : s.enqueueManual job revision snapshot run now = .ok s') : NoneFinished s s' := by
  obtain ⟨policy, hpolicy, -, -, -, -, hrows⟩ := enqueueManual_ok h
  intro r' hr' hdelete hterminal
  rw [hrows] at hr'
  rcases List.mem_append.mp hr' with hr' | hr'
  · obtain ⟨r, hr, hcont, hstate⟩ := state_of_mem_roomRows
      (fun hc => htells (replaces_of_candidate hpolicy hc)) hr' hdelete
    exact ⟨r, hr, hcont, hstate ▸ hterminal⟩
  · rw [List.mem_singleton.mp hr'] at hdelete
    simp [RunRow.deletesJob, manualRunRow] at hdelete

/-! ## Removed jobs -/

/-- What the operation does to the removal of jobs: nothing is undone, and a job is removed by its
own removal or by a finished run that deletes it. -/
structure RemovesBy (op : Op) (s s' : Store) : Prop where
  kept : ∀ job, s.removed job = true → s'.removed job = true
  cause : ∀ job, s'.removed job = true → s.removed job = true ∨ (∃ now, op = .removeJob job now) ∨
    ∃ r ∈ s'.runs.rows, r.removes job = true

section RemovesBy

variable {s s' : Store} {op : Op}

theorem RemovesBy.of_eq (h : ∀ job, s'.removed job = s.removed job) : RemovesBy op s s' :=
  ⟨fun job hjob => (h job).trans hjob, fun job hjob => Or.inl ((h job).symm.trans hjob)⟩

/-- Every job is left alone or removed, for one of the two causes. -/
theorem RemovesBy.of_map {f : Uuid → JobRow → JobRow}
    (hjobs : ∀ id, s'.jobs.find id = (s.jobs.find id).map (f id))
    (hf : ∀ id j, s.jobs.find id = some j → f id j = j ∨ (f id j).removedAt.isSome = true ∧
      ((∃ now, op = .removeJob id now) ∨ ∃ r ∈ s'.runs.rows, r.removes id = true)) :
    RemovesBy op s s' := by
  constructor
  · intro job hjob
    obtain ⟨j, hj, hremoved⟩ := Option.any_eq_true _ _ |>.mp hjob
    simp only [removed, hjobs, hj, Option.map_some, Option.any_some]
    rcases hf job j hj with hsame | ⟨hsome, -⟩
    · rwa [hsame]
    · exact hsome
  · intro job hjob
    simp only [removed, hjobs] at hjob ⊢
    cases hj : s.jobs.find job with
    | none =>
      rw [hj] at hjob
      cases hjob
    | some j =>
      rw [hj, Option.map_some, Option.any_some] at hjob
      rcases hf job j hj with hsame | ⟨-, hcause⟩
      · exact Or.inl (hsame ▸ hjob)
      · exact Or.inr hcause

theorem removed_of_map {f : JobRow → JobRow}
    (hjobs : ∀ id, s'.jobs.find id = (s.jobs.find id).map f)
    (hf : ∀ j, (f j).removedAt = j.removedAt) (job : Uuid) : s'.removed job = s.removed job := by
  simp only [removed, hjobs]
  cases s.jobs.find job with
  | none => rfl
  | some j => simp [hf]

theorem removed_of_editStep (h : EditStep s s') (job : Uuid) : s'.removed job = s.removed job := by
  cases h with
  | create new now hcreated =>
    simp only [removed, hcreated.jobs]
    split
    · next hid =>
      subst hid
      rw [hcreated.unknown]
      rfl
    · rfl
  | revise revision now hrevised =>
    refine removed_of_map hrevised.jobs ?_ job
    intro j
    split
    · rfl
    · rfl

theorem removed_of_edits (h : Relation.ReflTransGen EditStep s s') (job : Uuid) :
    s'.removed job = s.removed job := by
  induction h with
  | refl => rfl
  | tail _ hlast ih => exact (removed_of_editStep hlast job).trans ih

theorem removesBy_of_settles {finished : List Uuid} (h : Settles finished s s') :
    RemovesBy op s s' := by
  obtain ⟨now, hjobs⟩ := h.jobs
  refine .of_map hjobs fun id j _ => ?_
  split
  · next hcause =>
    simp only [Bool.and_eq_true, List.any_eq_true, Option.any_eq_true] at hcause
    obtain ⟨-, run, -, r, hr, hremoves⟩ := hcause
    exact Or.inr ⟨rfl, Or.inr ⟨r, Table.mem_of_find hr, hremoves⟩⟩
  · exact Or.inl rfl

theorem apply_removesBy (h : s.apply op = .ok s') : RemovesBy op s s' := by
  cases hedits : op.edits with
  | true =>
    cases op with
    | createJob job => exact .of_eq (removed_of_editStep (.create job job.now (createJob_ok h)))
    | updateJob job => exact .of_eq (removed_of_editStep (.revise job job.now (updateJob_ok h)))
    | applyImport batch =>
      obtain ⟨s₁, hsteps, hsame⟩ := applyImport_ok h
      refine .of_eq (fun job => ?_)
      rw [← removed_of_edits hsteps job]
      simp only [removed, hsame.jobs]
    | setEnabled id enabled now =>
      obtain ⟨j, -, -, -, -, hjobs, -⟩ := setEnabled_ok h
      refine .of_eq (removed_of_map hjobs (fun j => ?_))
      split
      · rfl
      · rfl
    | removeJob id now =>
      obtain ⟨-, -, -, -, hjobs⟩ := removeJob_ok h
      refine .of_map (f := fun _ => _) hjobs fun job j hj => ?_
      have hid : j.id = job := Table.key_of_find hj
      split
      · next hcause => exact Or.inr ⟨rfl, Or.inl ⟨now, by rw [← hcause.1, hid]⟩⟩
      · exact Or.inl rfl
    | _ => cases hedits
  | false =>
    cases hqueues : op.queues with
    | true =>
      cases op with
      | enqueueManual job revision snapshot run now =>
        obtain ⟨policy, -, hkeeps, -, -, -, -⟩ := enqueueManual_ok h
        exact .of_eq (fun job => by simp only [removed, hkeeps.jobs])
      | materialize job cursor runs summaries now =>
        obtain ⟨⟨result, s₁⟩, hs₁, rfl⟩ := Except.map_eq_ok.mp h
        obtain ⟨prepared, s₂, s₃, -, hcursor, hruns, rfl⟩ := materialize_ok hs₁
        obtain ⟨-, -, -, -, hjobs, -⟩ := advanceCursor_ok hcursor
        have hkept : s₃.jobs = s₂.jobs :=
          materializeRuns_induction (motive := fun t => t.jobs = s₂.jobs)
            (fun _ ht hrun => (materializeRun_ok hrun).1.jobs.trans ht) rfl hruns
        refine .of_eq (fun x => ?_)
        rw [← removed_of_map hjobs (fun j => by split <;> rfl) x]
        simp only [removed, (recordSummaries_keeps s₃ job summaries now).1.jobs, hkept]
      | _ => cases hqueues
    | false =>
      obtain ⟨finished, hsettles, -⟩ := apply_settles hedits hqueues h
      exact removesBy_of_settles hsettles

end RemovesBy

/-! ## Reachable states -/

def FinishedRemoved (s : Store) : Prop :=
  ∀ r ∈ s.runs.rows, r.deletesJob = true → r.state.isTerminal = true → s.removed r.jobId = true

variable {op : Op}

theorem FinishedRemoved.of_noneFinished (h : s.FinishedRemoved)
    (hby : RemovesBy op s s') (hnone : NoneFinished s s') : s'.FinishedRemoved := by
  intro r' hr' hdelete hterminal
  obtain ⟨r, hr, hcont, hbefore⟩ := hnone r' hr' hdelete hterminal
  rw [hcont.jobId]
  exact hby.kept _ (h r hr (hcont.toSameRun.deletesJob ▸ hdelete) hbefore)

theorem FinishedRemoved.of_lists {finished : List Uuid}
    (h : s.FinishedRemoved) (hlinked' : s'.Linked) (hby : RemovesBy op s s')
    (hstamped : ∀ r ∈ s'.runs.rows, r.Stamped)
    (hcont : ∀ r' ∈ s'.runs.rows, ∃ r ∈ s.runs.rows, r.Continues r')
    (hsettles : Settles finished s s') (hlists : Lists finished s s') : s'.FinishedRemoved := by
  intro r' hr' hdelete hterminal
  obtain ⟨r, hr, hcontinues⟩ := hcont r' hr'
  rcases hlists r'.id r' (Table.find_of_mem hr') hdelete hterminal with hlisted | ⟨x, hx, hbefore⟩
  · -- the run is listed, so its finished row removes the job
    obtain ⟨now, hjobs⟩ := hsettles.jobs
    have hremoves : RunRow.removes r'.jobId r' = true := by
      simp [RunRow.removes, hstamped r' hr' hterminal, hdelete]
    have hany : finished.any (fun run => (s'.runs.find run).any (RunRow.removes r'.jobId)) = true :=
      List.any_eq_true.mpr ⟨r'.id, hlisted, by rw [Table.find_of_mem hr']; exact hremoves⟩
    have hknown := hlinked'.job r' hr'
    simp only [knows, hjobs, Option.isSome_map] at hknown
    obtain ⟨j, hj⟩ := Option.isSome_iff_exists.mp hknown
    simp only [removed, hjobs, hj, Option.map_some, Option.any_some, hany, Bool.and_true]
    split
    · rfl
    · next hremoved => simpa [Option.isNone_iff_eq_none, Option.isSome_iff_ne_none] using hremoved
  · -- it was terminal before
    obtain rfl : x = r := Option.some.inj (hx.symm.trans
      (hcontinues.id ▸ Table.find_of_mem hr))
    rw [hcontinues.jobId]
    exact hby.kept _ (h x hr (hcontinues.toSameRun.deletesJob ▸ hdelete) hbefore)

theorem noneFinished_of_runs_eq (h : s'.runs = s.runs) : NoneFinished s s' := by
  intro r' hr' _ hterminal
  rw [h] at hr'
  exact ⟨r', hr', .refl r', hterminal⟩

theorem runs_of_edits (h : Relation.ReflTransGen EditStep s s') :
    s'.runs = s.runs := by
  induction h with
  | refl => rfl
  | tail _ hlast ih =>
    cases hlast with
    | create _ _ hcreated | revise _ _ hcreated => exact hcreated.runs.trans ih

theorem FinishedRemoved.apply (hs : Reachable tellsJobs s)
    (h : s.FinishedRemoved) (htells : s.tellsJobs op) (happly : s.apply op = .ok s') :
    s'.FinishedRemoved := by
  have hby := apply_removesBy happly
  have hs' : Reachable tellsJobs s' := hs.tail ⟨op, htells, happly⟩
  cases hedits : op.edits with
  | true =>
    refine h.of_noneFinished hby (noneFinished_of_runs_eq ?_)
    cases op with
    | createJob job => exact (createJob_ok happly).runs
    | updateJob job => exact (updateJob_ok happly).runs
    | applyImport batch =>
      obtain ⟨s₁, hsteps, hsame⟩ := applyImport_ok happly
      exact hsame.runs.trans (runs_of_edits hsteps)
    | setEnabled id enabled now =>
      obtain ⟨j, -, hruns, -⟩ := setEnabled_ok happly
      exact hruns
    | removeJob id now => exact (removeJob_ok happly).1
    | _ => cases hedits
  | false =>
    cases hqueues : op.queues with
    | true =>
      refine h.of_noneFinished hby ?_
      cases op with
      | enqueueManual job revision snapshot run now =>
        exact enqueueManual_noneFinished htells happly
      | materialize job cursor runs summaries now =>
        obtain ⟨⟨result, s₁⟩, hs₁, rfl⟩ := Except.map_eq_ok.mp happly
        exact materialize_noneFinished htells hs₁
      | _ => cases hqueues
    | false =>
      obtain ⟨finished, hsettles, hlists⟩ := apply_settles hedits hqueues happly
      have htold : s.TellsRuns op := by
        cases op with
        | enqueueManual | materialize => cases hqueues
        | _ => exact htells
      exact h.of_lists hs'.linked hby (fun r hr => hs'.stamped hr)
        (fun r' hr' => continues_of_not_queues hs.owned hqueues happly hr') hsettles
        (hlists htold)

theorem Reachable.finishedRemoved (h : Reachable tellsJobs s) : s.FinishedRemoved := by
  induction h with
  | refl => exact fun r hr => by cases hr
  | tail hs hlast ih =>
    obtain ⟨op, hop, happly⟩ := hlast
    exact ih.apply hs hop happly

/-- **Delete-after-run is exact** in every run of operations that meets the condition: in every
state a terminal scheduled or catch-up run that asks for it has removed its job, and an operation
removes a job only at the request of the user or because such a run, never a manual one, has
finished. -/
theorem delete_after_run_exact {s : Store} (h : Reachable tellsJobs s) :
    (∀ r ∈ s.runs.rows, r.deletesJob = true → r.state.isTerminal = true →
      s.removed r.jobId = true) ∧
    ∀ op s', s.apply op = .ok s' → ∀ job, s.removed job = false → s'.removed job = true →
      (∃ now, op = .removeJob job now) ∨ ∃ r ∈ s'.runs.rows, r.jobId = job ∧
        r.trigger ≠ .manual ∧ r.deletesJob = true ∧ r.finishedAt.isSome = true ∧
        ∀ r₀ ∈ s.runs.rows, r₀.Continues r → r₀.state.isTerminal = false := by
  refine ⟨h.finishedRemoved, ?_⟩
  intro op s' happly job hlive hremoved
  rcases (apply_removesBy happly).cause job hremoved with hbefore | hown | ⟨r, hr, hremoves⟩
  · rw [hlive] at hbefore
    cases hbefore
  · exact Or.inl hown
  simp only [RunRow.removes, Bool.and_eq_true, decide_eq_true_eq] at hremoves
  obtain ⟨⟨hfinished, hdelete⟩, hjob⟩ := hremoves
  have htrigger : r.trigger ≠ .manual := by
    simp only [RunRow.deletesJob, Bool.and_eq_true, bne_iff_ne] at hdelete
    exact hdelete.1
  refine Or.inr ⟨r, hr, hjob, htrigger, hdelete, hfinished, ?_⟩
  -- had the run been terminal before, its job would have been removed then
  intro r₀ hr₀ hcont
  by_contra hterminal
  have hgone := h.finishedRemoved r₀ hr₀ (hcont.toSameRun.deletesJob ▸ hdelete)
    (by simpa using hterminal)
  rw [← hcont.jobId, hjob, hlive] at hgone
  cases hgone

/-! ## A skipped occurrence -/

/-- A one-time job that asks to be deleted after its run. -/
def onceJob : Snapshot := .job ⟨.at 10, ExecutionPolicy.default, .delete, "true"⟩

/-- Its occurrence, materialized at time ten. -/
def onceOccurrence : Op :=
  .materialize 1 ⟨1, 0, 10, true⟩ [⟨4, 1, 1, .scheduled, 10, 10, 10, onceJob⟩] [] 10

/-- The occurrence meets a manual run and is skipped; the run is terminal and the job stays. -/
theorem skipped_run_keeps_job :
    ∃ s, Reachable anyOp s ∧ ∃ r ∈ s.runs.rows, r.trigger = .scheduled ∧ r.deletesJob = true ∧
      r.state = .skippedOverlap ∧ s.removed r.jobId = false := by
  exact exists_reachable anyOp
    [.createJob ⟨1, "once", none, "[]", true, onceJob, 0, 0⟩, .enqueueManual 1 1 onceJob 3 5,
      onceOccurrence] _ (fun _ _ _ => trivial) (by decide +kernel)

/-- The rest of the life of the occurrence: it is admitted, runs and succeeds. -/
def onceSucceeds : List Op :=
  [.beginLifetime 2 10, .admitRuns (fun _ => some onceJob) 2 10 1, .markAttemptRunning 4 1 11 none,
   .completeAttempt ⟨4, 1, 12, 1, .succeeded, some 0, none, none, "exited with 0", none⟩]

/-- Without the manual run the occurrence is queued, runs, and removes its job. -/
theorem delete_after_run_exact_once :
    ∃ s, Reachable tellsJobs s ∧ ∃ r ∈ s.runs.rows, r.deletesJob = true ∧ r.state = .succeeded ∧
      s.removed r.jobId = true := by
  obtain ⟨s, hs, hempty, s₁, hmaterialize, s₂, hrest, r, hr, hdelete, hstate⟩ :=
    exists_reachable tellsJobs [.createJob ⟨1, "once", none, "[]", true, onceJob, 0, 0⟩]
      (fun s => s.runs.rows = [] ∧ ∃ s₁, s.apply onceOccurrence = .ok s₁ ∧
        ∃ s₂, s₁.applyAll onceSucceeds = .ok s₂ ∧
          ∃ r ∈ s₂.runs.rows, r.deletesJob = true ∧ r.state = .succeeded)
      (by simp [tellsJobs, TellsRuns]) (by decide +kernel)
  have htells : s.tellsJobs onceOccurrence := by
    constructor
    · intro run hrun _
      rw [List.mem_singleton.mp hrun]
      refine ⟨rfl, fun policy _ => ?_⟩
      simp [decision, jobQuarantined, activeCount, Table.exist, Table.count, hempty,
        overlapDecision, OverlapDecision.queue]
    · intro _ _ _ r hr
      rw [hempty] at hr
      cases hr
  have hs₁ : Reachable tellsJobs s₁ := hs.tail ⟨onceOccurrence, htells, hmaterialize⟩
  have hs₂ := hs₁.applyAll onceSucceeds
    (by simp [onceSucceeds, tellsJobs, TellsRuns, TellsCandidates]) hrest
  exact ⟨s₂, hs₂, r, hr, hdelete, hstate,
    (delete_after_run_exact hs₂).1 r hr hdelete (by rw [hstate]; rfl)⟩

end Store

end Locron
