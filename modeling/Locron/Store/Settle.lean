import Locron.Store.Edits

set_option autoImplicit false

/-! # Operations on runs and the tables of definitions

An operation on runs leaves revisions, cursors and the queue sequence alone, and changes jobs only
by removing those whose delete-after-run occurrence it has finished (`Settles`). Each operation is
read once for this.
-/

namespace Locron

/-- A scheduled or catch-up run of a one-time definition that asks for the job's deletion. -/
def RunRow.deletesJob (r : RunRow) : Bool :=
  r.trigger != .manual && match r.snapshot.definition with
    | none => false
    | some d => d.completionAction = .delete && match d.schedule with | .at _ => true | _ => false

def RunRow.removes (job : Uuid) (r : RunRow) : Bool :=
  r.finishedAt.isSome && r.deletesJob && r.jobId = job

def JobRow.remove (now : Int) (j : JobRow) : JobRow :=
  { j with enabled := false, removedAt := some now, updatedAt := now }

theorem JobRow.id_remove {now : Int} (j : JobRow) : (j.remove now).id = j.id := rfl

namespace Store

/-! ## Soft removal -/

variable {s : Store} {now : Int} {run : Uuid}

theorem softRemove_eq_self
    (h : (s.runs.find run).any (fun r => r.finishedAt.isSome && r.deletesJob) = false) :
    s.softRemoveAfterOneTimeCompletion run now = s := by
  unfold softRemoveAfterOneTimeCompletion
  split
  · rfl
  next r hr =>
  obtain ⟨hfind, hfinished⟩ := Option.filter_eq_some_iff.mp hr
  simp only [hfind, Option.any_some, hfinished, Bool.true_and, RunRow.deletesJob] at h
  split
  · rfl
  next d hd =>
  simp only [hd] at h
  cases hs : d.schedule with
  | «at» instant =>
    simp only [hs, Bool.and_true] at h
    rw [if_pos]
    simp only [Bool.or_eq_true, decide_eq_true_eq, bne_iff_ne, Bool.not_true,
      Bool.false_eq_true, or_false]
    by_contra hno
    simp only [not_or, not_not] at hno
    simp [hno] at h
  | _ => simp

theorem softRemove_of_deletesJob {r : RunRow}
    (hr : s.runs.find run = some r) (hfinished : r.finishedAt.isSome = true)
    (hdelete : r.deletesJob = true) :
    SameTables (s.updateJobs (fun j => j.id = r.jobId && j.removedAt.isNone) (JobRow.remove now)
      JobRow.id_remove) (s.softRemoveAfterOneTimeCompletion run now) := by
  unfold softRemoveAfterOneTimeCompletion
  rw [hr]
  simp only [Option.filter, hfinished, if_true]
  simp only [RunRow.deletesJob, Bool.and_eq_true, bne_iff_ne] at hdelete
  obtain ⟨htrigger, hdelete⟩ := hdelete
  split
  · next hd =>
    rw [hd] at hdelete
    cases hdelete
  next d hd =>
  simp only [hd, Bool.and_eq_true, decide_eq_true_eq] at hdelete
  cases hs : d.schedule with
  | «at» instant =>
    simp only [htrigger, hdelete.1, decide_false, bne_self_eq_false, Bool.or_self,
      Bool.not_true, Bool.false_eq_true, if_false]
    split
    · exact sameTables_event ..
    · exact .refl _
  | _ => simp [hs] at hdelete

theorem find_jobs_softRemove (s : Store) (run : Uuid) (now : Int) (id : Uuid) :
    (s.softRemoveAfterOneTimeCompletion run now).jobs.find id
      = (s.jobs.find id).map (fun j => if j.removedAt.isNone
          && (s.runs.find run).any (RunRow.removes id) then j.remove now else j) := by
  by_cases hany : (s.runs.find run).any (fun r => r.finishedAt.isSome && r.deletesJob) = true
  · obtain ⟨r, hr, hand⟩ := Option.any_eq_true _ _ |>.mp hany
    rw [Bool.and_eq_true] at hand
    rw [(softRemove_of_deletesJob hr hand.1 hand.2).jobs]
    have hremoves : (s.runs.find run).any (RunRow.removes id) = decide (r.jobId = id) := by
      simp [hr, RunRow.removes, hand.1, hand.2]
    rw [hremoves]
    rw [updateJobs, Table.find_update]
    cases hj : s.jobs.find id with
    | none => rfl
    | some j =>
      have hid : j.id = id := Table.key_of_find hj
      simp only [Option.map_some, hid, Bool.and_comm, eq_comm]
  · have hno : (s.runs.find run).any (RunRow.removes id) = false := by
      cases hr : s.runs.find run with
      | none => rfl
      | some r =>
        rw [hr, Option.any_some] at hany
        simp [RunRow.removes, hany]
    rw [softRemove_eq_self (by simpa using hany), hno]
    simp

theorem softRemove_keeps (s : Store) (run : Uuid) (now : Int) :
    let s' := s.softRemoveAfterOneTimeCompletion run now
    s'.revisions = s.revisions ∧ s'.cursors = s.cursors ∧ s'.runs = s.runs ∧
      s'.nextQueueSequence = s.nextQueueSequence := by
  obtain ⟨jobs, events, heq⟩ := s.softRemove_eq run now
  rw [heq]
  exact ⟨rfl, rfl, rfl, rfl⟩

def softRemoveAll (s : Store) (runs : List Uuid) (now : Int) : Store :=
  runs.foldl (fun s run => s.softRemoveAfterOneTimeCompletion run now) s

theorem softRemoveAll_keeps (s : Store) (runs : List Uuid) (now : Int) :
    let s' := s.softRemoveAll runs now
    s'.revisions = s.revisions ∧ s'.cursors = s.cursors ∧ s'.runs = s.runs ∧
      s'.nextQueueSequence = s.nextQueueSequence := by
  induction runs generalizing s with
  | nil => exact ⟨rfl, rfl, rfl, rfl⟩
  | cons run runs ih =>
    obtain ⟨h₁, h₂, h₃, h₄⟩ := ih (s.softRemoveAfterOneTimeCompletion run now)
    obtain ⟨h₁', h₂', h₃', h₄'⟩ := softRemove_keeps s run now
    exact ⟨h₁.trans h₁', h₂.trans h₂', h₃.trans h₃', h₄.trans h₄'⟩

theorem find_jobs_softRemoveAll (s : Store) (runs : List Uuid) (now : Int) (id : Uuid) :
    (s.softRemoveAll runs now).jobs.find id
      = (s.jobs.find id).map (fun j => if j.removedAt.isNone
          && runs.any (fun run => (s.runs.find run).any (RunRow.removes id)) then j.remove now
        else j) := by
  induction runs generalizing s with
  | nil => simp [softRemoveAll]
  | cons run runs ih =>
    have hruns := (softRemove_keeps s run now).2.2.1
    have hfold := ih (s.softRemoveAfterOneTimeCompletion run now)
    rw [hruns, find_jobs_softRemove, Option.map_map] at hfold
    refine hfold.trans ?_
    congr 1
    funext j
    simp only [Function.comp_apply, List.any_cons]
    -- a removed job is not removed again
    by_cases hnone : j.removedAt.isNone = true
    · by_cases hfirst : (s.runs.find run).any (RunRow.removes id) = true
      · simp [hnone, hfirst, JobRow.remove]
      · simp [hnone, hfirst]
    · simp [hnone]

/-! ## Operations on runs -/

/-- The operation leaves definitions alone but for the jobs that the listed runs remove. -/
structure Settles (finished : List Uuid) (s s' : Store) : Prop where
  revisions : s'.revisions = s.revisions
  cursors : s'.cursors = s.cursors
  nextQueueSequence : s'.nextQueueSequence = s.nextQueueSequence
  jobs : ∃ now, ∀ id, s'.jobs.find id = (s.jobs.find id).map (fun j => if j.removedAt.isNone
    && finished.any (fun run => (s'.runs.find run).any (RunRow.removes id)) then
      j.remove now else j)

/-- Every run that deletes its job is listed when it becomes terminal. -/
def Lists (finished : List Uuid) (s s' : Store) : Prop :=
  ∀ id r', s'.runs.find id = some r' → r'.deletesJob = true → r'.state.isTerminal = true →
    id ∈ finished ∨ ∃ r, s.runs.find id = some r ∧ r.state.isTerminal = true

structure KeepsQueue (s s' : Store) : Prop extends KeepsDefinitions s s' where
  nextQueueSequence : s'.nextQueueSequence = s.nextQueueSequence

namespace KeepsQueue

variable {s s' s'' : Store}

theorem refl (s : Store) : KeepsQueue s s := ⟨.refl s, rfl⟩

theorem trans (h : KeepsQueue s s') (h' : KeepsQueue s' s'') : KeepsQueue s s'' :=
  ⟨h.toKeepsDefinitions.trans h'.toKeepsDefinitions,
    h'.nextQueueSequence.trans h.nextQueueSequence⟩

-- The statements that an operation on runs consists of, in the order they are chained below.
variable (h : KeepsQueue s s')
include h

theorem event {at_ : Int} {kind : String} {job run : Option Uuid} {details : String} :
    KeepsQueue s (s'.event at_ kind job run details) :=
  ⟨⟨h.jobs, h.revisions, h.cursors⟩, h.nextQueueSequence⟩

theorem updateRuns {p : RunRow → Bool} {f : RunRow → RunRow} {hf : ∀ r, (f r).id = r.id} :
    KeepsQueue s (s'.updateRuns p f hf) :=
  ⟨⟨h.jobs, h.revisions, h.cursors⟩, h.nextQueueSequence⟩

theorem updateAttempts {p : AttemptRow → Bool} {f : AttemptRow → AttemptRow}
    {hf : ∀ r, (f r).key = r.key} : KeepsQueue s (s'.updateAttempts p f hf) :=
  ⟨⟨h.jobs, h.revisions, h.cursors⟩, h.nextQueueSequence⟩

theorem updateOutputs {p : OutputRow → Bool} {f : OutputRow → OutputRow}
    {hf : ∀ r, (f r).key = r.key} : KeepsQueue s (s'.updateOutputs p f hf) :=
  ⟨⟨h.jobs, h.revisions, h.cursors⟩, h.nextQueueSequence⟩

theorem deleteRetryIntents {p : RetryIntentRow → Bool} :
    KeepsQueue s (s'.deleteRetryIntents p) :=
  ⟨⟨h.jobs, h.revisions, h.cursors⟩, h.nextQueueSequence⟩

theorem putRetryIntent {row : RetryIntentRow} : KeepsQueue s (s'.putRetryIntent row) :=
  ⟨⟨h.jobs, h.revisions, h.cursors⟩, h.nextQueueSequence⟩

end KeepsQueue

section Settles

variable {s s₁ s' : Store}

/-- Nothing is finished, as far as jobs are concerned. -/
theorem Settles.of_keeps (hkeeps : KeepsQueue s s') : Settles [] s s' := by
  refine ⟨hkeeps.revisions, hkeeps.cursors, hkeeps.nextQueueSequence, ⟨0, ?_⟩⟩
  intro id
  rw [hkeeps.jobs]
  simp

theorem Lists.of_terminal (hrows : ∀ id r', s'.runs.find id = some r' →
    r'.state.isTerminal = true → ∃ r, s.runs.find id = some r ∧ r.state.isTerminal = true)
    (finished : List Uuid) : Lists finished s s' :=
  fun id r' hr' _ hterminal => Or.inr (hrows id r' hr' hterminal)

theorem Lists.of_runs_eq (h : s'.runs = s.runs) (finished : List Uuid) : Lists finished s s' := by
  apply Lists.of_terminal
  intro id r' hr' hterminal
  rw [h] at hr'
  exact ⟨r', hr', hterminal⟩

theorem settles_of_sameTables (h : SameTables s s') :
    ∃ finished, Settles finished s s' ∧ Lists finished s s' :=
  ⟨[], .of_keeps ⟨h.toKeepsDefinitions, h.nextQueueSequence⟩, .of_runs_eq h.runs []⟩

theorem settles_of_softRemoveAll {runs : List Uuid} (hkeeps : KeepsQueue s s₁)
    (hother : ∀ id, id ∉ runs → s₁.runs.find id = s.runs.find id) :
    Settles runs s (s₁.softRemoveAll runs now) ∧ Lists runs s (s₁.softRemoveAll runs now) := by
  obtain ⟨hrevisions, hcursors, hruns, hsequence⟩ := softRemoveAll_keeps s₁ runs now
  refine ⟨⟨hrevisions.trans hkeeps.revisions, hcursors.trans hkeeps.cursors,
    hsequence.trans hkeeps.nextQueueSequence, ⟨now, ?_⟩⟩, ?_⟩
  · intro id
    rw [find_jobs_softRemoveAll, hruns, hkeeps.jobs]
  · intro id r' hr' _ hterminal
    rw [hruns] at hr'
    by_cases hid : id ∈ runs
    · exact Or.inl hid
    · rw [hother id hid] at hr'
      exact Or.inr ⟨r', hr', hterminal⟩

theorem settles_of_softRemove (hkeeps : KeepsQueue s s₁)
    (hother : ∀ id, id ≠ run → s₁.runs.find id = s.runs.find id) :
    ∃ finished, Settles finished s (s₁.softRemoveAfterOneTimeCompletion run now) ∧
      Lists finished s (s₁.softRemoveAfterOneTimeCompletion run now) := by
  have hother' : ∀ id, id ∉ [run] → s₁.runs.find id = s.runs.find id := by
    intro id hid
    exact hother id (by simpa using hid)
  exact ⟨[run], settles_of_softRemoveAll hkeeps hother'⟩

theorem Settles.congr {finished : List Uuid} (h : Settles finished s s₁)
    (hsame : SameTables s₁ s') : Settles finished s s' := by
  obtain ⟨now, hjobs⟩ := h.jobs
  refine ⟨hsame.revisions.trans h.revisions, hsame.cursors.trans h.cursors,
    hsame.nextQueueSequence.trans h.nextQueueSequence, ⟨now, ?_⟩⟩
  rw [hsame.jobs, hsame.runs]
  exact hjobs

theorem Lists.congr {finished : List Uuid} (h : Lists finished s s₁) (hruns : s'.runs = s₁.runs) :
    Lists finished s s' := by
  unfold Lists
  rw [hruns]
  exact h

end Settles

/-- A change of rows of one run. -/
theorem find_updateRuns_of_ne {id : Uuid} {p : RunRow → Bool} {f : RunRow → RunRow}
    (hf : ∀ r, (f r).id = r.id) (hp : ∀ r, p r = true → r.id = run) (hid : id ≠ run) :
    (s.runs.update p f hf).find id = s.runs.find id := by
  apply Table.find_update_eq_self
  intro r hr
  by_contra hpr
  exact hid (hr.symm.trans (hp r (by simpa using hpr)))

/-- A change that leaves no changed row terminal finishes nothing. -/
theorem terminal_of_updateRuns {id : Uuid} {p : RunRow → Bool} {f : RunRow → RunRow}
    (hf : ∀ r, (f r).id = r.id) (hstate : ∀ r, (f r).state.isTerminal = false) {r' : RunRow}
    (hr' : (s.runs.update p f hf).find id = some r') (hterminal : r'.state.isTerminal = true) :
    ∃ r, s.runs.find id = some r ∧ r.state.isTerminal = true := by
  rw [Table.find_update] at hr'
  obtain ⟨r, hr, rfl⟩ := Option.map_eq_some_iff.mp hr'
  split at hterminal
  · rw [hstate r] at hterminal
    cases hterminal
  · exact ⟨r, hr, hterminal⟩

variable {s' : Store} {number : Nat}

theorem markAttemptRunning_settles {executable : Option String} {decision : StartDecision}
    (h : s.markAttemptRunning run number now executable = .ok (decision, s')) :
    ∃ finished, Settles finished s s' ∧ Lists finished s s' := by
  unfold markAttemptRunning at h
  split at h
  · cases h
  next r hr =>
  obtain ⟨-, h⟩ := Except.guard_eq_ok.mp h
  split at h
  · next source hsource =>
    obtain ⟨s₁, hs₁, heq⟩ := Except.map_eq_ok.mp h
    cases heq
    unfold cancelBeforeSpawn at hs₁
    obtain ⟨-, hs₁⟩ := Except.guard_eq_ok.mp hs₁
    cases hs₁
    refine settles_of_softRemove
      (KeepsQueue.refl s).updateAttempts.updateOutputs.updateRuns.deleteRetryIntents.event ?_
    intro id hid
    exact find_updateRuns_of_ne RunRow.id_finishCandidate (by simp +contextual) hid
  · split at h
    · split at h
      · cases h
        exact settles_of_sameTables (.refl s)
      · cases h
    · obtain ⟨-, h⟩ := Except.guard_eq_ok.mp h
      cases h
      refine ⟨[], .of_keeps (KeepsQueue.refl s).updateAttempts.updateRuns, .of_terminal ?_ []⟩
      intro id r' hr' hterminal
      exact terminal_of_updateRuns (f := fun r => { r with state := .running }) (fun _ => rfl)
        (fun _ => rfl) hr' hterminal

variable {c : AttemptCompletion}

theorem completeUnconfirmed_ok (h : s.completeUnconfirmed c = .ok s') :
    s' = s ∨ ∃ r, s.runs.find c.runId = some r ∧ KeepsQueue s s' ∧
      ∀ id, s'.runs.find id = ((s.runs.find id).map (fun x =>
          if x.id = c.runId then x.quarantine else x)).map (fun x =>
        if r.cancellationReason = some "replacement" ∧ x.jobId = r.jobId ∧
            x.replacementCandidate = true ∧ x.state.isPending = true then
          x.finishCandidate .failed "replacement failed: predecessor termination unconfirmed" c.now
        else x) := by
  unfold completeUnconfirmed at h
  split at h
  · split at h
    · cases h
      exact Or.inl rfl
    · cases h
  · obtain ⟨-, h⟩ := Except.guard_eq_ok.mp h
    dsimp only at h
    split at h
    · cases h
    next r hr =>
    obtain ⟨hfind, -⟩ := Option.filter_eq_some_iff.mp hr
    cases h
    refine Or.inr ⟨r, hfind, ?_⟩
    by_cases hreason : r.cancellationReason = some "replacement"
    · rw [if_pos hreason]
      refine ⟨(KeepsQueue.refl s).updateAttempts.deleteRetryIntents.updateRuns
        |>.deleteRetryIntents.updateRuns.event, ?_⟩
      intro id
      simp only [event, updateRuns, deleteRetryIntents, updateAttempts, Table.find_update,
        hreason, true_and, Bool.and_eq_true, decide_eq_true_eq, and_assoc]
    · rw [if_neg hreason]
      refine ⟨(KeepsQueue.refl s).updateAttempts.deleteRetryIntents.updateRuns.event, ?_⟩
      intro id
      simp only [event, updateRuns, deleteRetryIntents, updateAttempts, Table.find_update,
        hreason, false_and, if_false, Option.map_id', decide_eq_true_eq]

/-- No candidate that deletes its job fails with a quarantine, without a word to the job. -/
def TellsCandidates (s : Store) (c : AttemptCompletion) : Prop :=
  c.state = .terminationUnconfirmed → ∀ r, s.runs.find c.runId = some r →
    r.cancellationReason = some "replacement" → ∀ x ∈ s.runs.rows, x.jobId = r.jobId →
      x.replacementCandidate = true → x.state.isPending = true → x.deletesJob = false

theorem completeUnconfirmed_settles
    (hstate : c.state = .terminationUnconfirmed) (h : s.completeUnconfirmed c = .ok s') :
    ∃ finished, Settles finished s s' ∧ (s.TellsCandidates c → Lists finished s s') := by
  rcases completeUnconfirmed_ok h with rfl | ⟨r, hr, hkeeps, hruns⟩
  · exact ⟨[], .of_keeps (.refl _), fun _ => .of_runs_eq rfl []⟩
  refine ⟨[], .of_keeps hkeeps, fun htells => ?_⟩
  intro id r' hr' hdelete hterminal
  right
  rw [hruns id, Option.map_map] at hr'
  obtain ⟨x, hx, rfl⟩ := Option.map_eq_some_iff.mp hr'
  simp only [Function.comp_apply] at hterminal hdelete
  by_cases hid : x.id = c.runId
  · -- the quarantined run is running, so it is neither terminal nor a candidate
    rw [if_pos hid, if_neg (fun hc => by cases hc.2.2.2)] at hterminal
    cases hterminal
  rw [if_neg hid] at hterminal hdelete
  split at hterminal
  · next hc =>
    have hno := htells hstate r hr hc.1 x (Table.mem_of_find hx) hc.2.1 hc.2.2.1 hc.2.2.2
    rw [if_pos hc] at hdelete
    have hsame : x.deletesJob = true := hdelete
    rw [hno] at hsame
    cases hsame
  · exact ⟨x, hx, hterminal⟩

theorem completeAttempt_settles (h : s.completeAttempt c = .ok s') :
    ∃ finished, Settles finished s s' ∧ (s.TellsCandidates c → Lists finished s s') := by
  have hany : (∃ finished, Settles finished s s' ∧ Lists finished s s') →
      ∃ finished, Settles finished s s' ∧ (s.TellsCandidates c → Lists finished s s') :=
    fun ⟨finished, hsettles, hlists⟩ => ⟨finished, hsettles, fun _ => hlists⟩
  unfold completeAttempt at h
  split at h
  · next hstate =>
    obtain ⟨-, h⟩ := Except.guard_eq_ok.mp h
    exact completeUnconfirmed_settles hstate h
  apply hany
  obtain ⟨-, h⟩ := Except.guard_eq_ok.mp h
  split at h
  · split at h
    · cases h
      exact settles_of_sameTables (.refl s)
    · cases h
  · obtain ⟨-, h⟩ := Except.guard_eq_ok.mp h
    dsimp only at h
    split at h
    · next plan hplan =>
      cases h
      refine ⟨[], .of_keeps (KeepsQueue.refl s).updateAttempts.updateRuns.putRetryIntent,
        .of_terminal ?_ []⟩
      intro id r' hr' hterminal
      exact terminal_of_updateRuns (f := RunRow.retry plan.notBefore c.reason) RunRow.id_retry
        (fun _ => rfl) hr' hterminal
    · cases h
      refine settles_of_softRemove
        (KeepsQueue.refl s).updateAttempts.deleteRetryIntents.updateRuns ?_
      intro id hid
      exact find_updateRuns_of_ne RunRow.id_finish (by simp) hid

theorem completePreExecutionFailure_settles {output : Option OutputRecord} {reason : String}
    (h : s.completePreExecutionFailure run number output now reason = .ok s') :
    ∃ finished, Settles finished s s' ∧ Lists finished s s' := by
  unfold completePreExecutionFailure at h
  obtain ⟨-, h⟩ := Except.guard_eq_ok.mp h
  obtain ⟨-, h⟩ := Except.guard_eq_ok.mp h
  obtain ⟨-, h⟩ := Except.guard_eq_ok.mp h
  obtain ⟨-, h⟩ := Except.guard_eq_ok.mp h
  dsimp only at h
  split at h
  · cases h
  cases h
  refine settles_of_softRemove
    (KeepsQueue.refl s).updateOutputs.updateAttempts.deleteRetryIntents.updateRuns.event ?_
  intro id hid
  exact find_updateRuns_of_ne RunRow.id_finish (by simp +contextual) hid

/-- A runner failure that does not find all three rows as it expects finishes no live run that
deletes its job, without a word to the job. -/
def TellsRunnerFailure (s : Store) (run : Uuid) (number : Nat) : Prop :=
  ∀ r, s.runs.find run = some r → r.state.isLive = true → r.deletesJob = true →
    s.outputs.count (OutputRow.isOf run number [.pending, .active]) = 1 ∧
      s.attempts.count (AttemptRow.isActiveOf run number) = 1

theorem keepsQueue_applyRunnerFailure (s : Store) (run : Uuid) (number : Nat) (now duration : Int)
    (reason : String) (mayHaveStarted : Bool) :
    KeepsQueue s (s.applyRunnerFailure run number now duration reason mayHaveStarted) :=
  (KeepsQueue.refl s).updateOutputs.updateAttempts.updateRuns.deleteRetryIntents

theorem completeRunnerFailure_settles {reason : String} {mayHaveStarted : Bool}
    (h : s.completeRunnerFailure run number now reason mayHaveStarted = .ok s') :
    ∃ finished, Settles finished s s' ∧ (s.TellsRunnerFailure run number →
      Lists finished s s') := by
  have hany : (∃ finished, Settles finished s s' ∧ Lists finished s s') →
      ∃ finished, Settles finished s s' ∧ (s.TellsRunnerFailure run number →
        Lists finished s s') :=
    fun ⟨finished, hsettles, hlists⟩ => ⟨finished, hsettles, fun _ => hlists⟩
  unfold completeRunnerFailure at h
  dsimp only at h
  split at h
  · split at h
    · cases h
    · cases h
  next duration hduration =>
  split at h
  · split at h
    · cases h
    cases h
    apply hany
    refine settles_of_softRemove (keepsQueue_applyRunnerFailure ..).event ?_
    intro id hid
    exact find_updateRuns_of_ne RunRow.id_finishCandidate (by simp +contextual) hid
  · next hincomplete =>
    split at h
    · cases h
      refine ⟨[], .of_keeps (keepsQueue_applyRunnerFailure ..), fun htells => ?_⟩
      intro id r' hr' hdelete hterminal
      right
      have hupdate := @Table.find_update _ _ _ _
        (fun r : RunRow => decide (r.id = run) && r.state.isLive)
        (RunRow.finishCandidate (runnerFailureStates mayHaveStarted).2.1 reason now)
        RunRow.id_finishCandidate s.runs id
      obtain ⟨r, hr, rfl⟩ := Option.map_eq_some_iff.mp (hupdate.symm.trans hr')
      split at hterminal
      · next hlive =>
        simp only [Bool.and_eq_true, decide_eq_true_eq] at hlive
        have hfind : s.runs.find run = some r :=
          Table.find_eq_some.mpr ⟨Table.mem_of_find hr, hlive.1⟩
        rw [if_pos (by simp [hlive])] at hdelete
        obtain ⟨houtputs, hattempts⟩ := htells r hfind hlive.2 hdelete
        have hruns := Table.count_key s.runs (p := fun r => r.state.isLive) hfind hlive.2
        exact absurd (by simp [houtputs, hattempts, hruns]) hincomplete
      · exact ⟨r, hr, hterminal⟩
    · cases h

theorem cancelWithAcknowledgement_settles {acknowledge : Bool} {outcome : CancelOutcome}
    (h : s.cancelWithAcknowledgement run now acknowledge = .ok (outcome, s')) :
    ∃ finished, Settles finished s s' ∧ Lists finished s s' := by
  unfold cancelWithAcknowledgement at h
  split at h
  · cases h
  split at h
  · cases h
  · cases h
    refine settles_of_softRemove (KeepsQueue.refl s).updateRuns.deleteRetryIntents.event ?_
    intro id hid
    exact find_updateRuns_of_ne RunRow.id_finishCandidate (by simp +contextual) hid
  · cases h
    refine settles_of_softRemove (KeepsQueue.refl s).updateRuns.deleteRetryIntents.event ?_
    intro id hid
    exact find_updateRuns_of_ne RunRow.id_cancelPending (by simp) hid
  · next r hr _ hdecision =>
    split at h
    · cases h
      exact settles_of_sameTables (.refl s)
    cases h
    refine ⟨[], .of_keeps (KeepsQueue.refl s).updateRuns.event, .of_terminal ?_ []⟩
    intro id r' hr' hterminal
    have hupdate := @Table.find_update _ _ _ _ (fun r : RunRow => decide (r.id = run))
      (RunRow.requestCancellation now) RunRow.id_requestCancellation s.runs id
    obtain ⟨x, hx, rfl⟩ := Option.map_eq_some_iff.mp (hupdate.symm.trans hr')
    split at hterminal
    · exact ⟨x, hx, hterminal⟩
    · exact ⟨x, hx, hterminal⟩

variable {lifetime : Uuid}

theorem beginLifetime_settles {stale : Nat}
    (h : s.beginLifetime lifetime now = .ok (stale, s')) :
    ∃ finished, Settles finished s s' ∧ Lists finished s s' := by
  unfold beginLifetime at h
  dsimp only at h
  split at h
  · cases h
  cases h
  -- the state before the removals
  have hsettles : ∀ s₁ : Store, KeepsQueue s s₁ →
      s₁.runs = s.runs.update RunRow.stale (RunRow.interrupt now) RunRow.id_interrupt →
      let runs := (s.runs.rows.filter RunRow.stale).map (fun r => r.id)
      Settles runs s (s₁.softRemoveAll runs now) ∧ Lists runs s (s₁.softRemoveAll runs now) := by
    intro s₁ hkeeps hruns
    refine settles_of_softRemoveAll hkeeps ?_
    intro id hid
    rw [hruns, Table.find_update]
    cases hr : s.runs.find id with
    | none => rfl
    | some r =>
      -- the stale runs are all listed
      have hfresh : ¬ r.stale = true := by
        intro hstale
        exact hid (List.mem_map.mpr ⟨r, List.mem_filter.mpr ⟨Table.mem_of_find hr, hstale⟩,
          Table.key_of_find hr⟩)
      simp [hfresh]
  obtain ⟨hfirst, hlists⟩ := hsettles (((s.deleteRetryIntents (fun i => s.attempts.exist
    (fun a => a.runId = i.runId && a.state.isActive))).updateAttempts (fun a => a.state.isActive)
      (AttemptRow.interrupt now) AttemptRow.key_interrupt).updateRuns RunRow.stale
        (RunRow.interrupt now) RunRow.id_interrupt)
    (KeepsQueue.refl s).deleteRetryIntents.updateAttempts.updateRuns rfl
  exact ⟨_, hfirst.congr ⟨⟨rfl, rfl, rfl⟩, rfl, rfl⟩, hlists.congr rfl⟩

theorem startAttempt_keeps {job : Uuid} (h : s.startAttempt lifetime now run job number = .ok s') :
    KeepsQueue s s' ∧
      s'.runs = s.runs.update (fun r => r.id = run && r.state.isPending)
        (fun r => { r with state := .starting }) (fun _ => rfl) := by
  unfold startAttempt at h
  dsimp only at h
  obtain ⟨-, h⟩ := Except.guard_eq_ok.mp h
  split at h
  · cases h
    exact ⟨⟨⟨rfl, rfl, rfl⟩, rfl⟩, rfl⟩
  · cases h

theorem startAttempts_keeps
    {admitted : List (RunRow × Nat)} (h : s.startAttempts lifetime now admitted = .ok s') :
    KeepsQueue s s' ∧
      ∀ id r', s'.runs.find id = some r' → r'.state.isTerminal = true →
        ∃ r, s.runs.find id = some r ∧ r.state.isTerminal = true := by
  induction admitted generalizing s with
  | nil =>
    cases h
    exact ⟨.refl _, fun id r' hr' hterminal => ⟨r', hr', hterminal⟩⟩
  | cons x admitted ih =>
    obtain ⟨row, number⟩ := x
    unfold startAttempts at h
    split at h
    · cases h
    next s₁ hstart =>
    obtain ⟨hkeeps, hrows⟩ := ih h
    obtain ⟨hkeeps₁, hruns⟩ := startAttempt_keeps hstart
    refine ⟨hkeeps₁.trans hkeeps, ?_⟩
    intro id r' hr' hterminal
    obtain ⟨r, hr, hterminal⟩ := hrows id r' hr' hterminal
    rw [hruns] at hr
    exact terminal_of_updateRuns (f := fun r => { r with state := .starting })
      (fun _ => rfl) (fun _ => rfl) hr hterminal

theorem admitRuns_settles {prepared : Uuid → Option Snapshot}
    {guard : Nat} {admitted : List (RunRow × Nat)}
    (h : s.admitRuns prepared lifetime now guard = .ok (admitted, s')) :
    ∃ finished, Settles finished s s' ∧ Lists finished s s' := by
  rcases admitRuns_ok h with ⟨-, rfl⟩ | ⟨selected, -, -, rfl, hstart⟩
  · exact settles_of_sameTables (.refl _)
  · obtain ⟨hkeeps, hrows⟩ := startAttempts_keeps hstart
    exact ⟨[], .of_keeps hkeeps, .of_terminal hrows []⟩

theorem finishRunRetention_settles {candidate : RunRetentionCandidate}
    (h : s.finishRunRetention candidate = .ok s') :
    ∃ finished, Settles finished s s' ∧ Lists finished s s' := by
  unfold finishRunRetention at h
  split at h
  · obtain ⟨-, h⟩ := Except.guard_eq_ok.mp h
    cases h
    exact settles_of_sameTables (.refl s)
  split at h
  · cases h
    refine ⟨[], .of_keeps ⟨⟨rfl, rfl, rfl⟩, rfl⟩, .of_terminal ?_ []⟩
    intro id r' hr' hterminal
    have hdelete := @Table.find_delete _ _ _ _ (fun r : RunRow => decide (r.id = candidate.runId))
      s.runs id
    obtain ⟨hr, -⟩ := Option.filter_eq_some_iff.mp (hdelete.symm.trans hr')
    exact ⟨r', hr, hterminal⟩
  · cases h

end Store

end Locron
