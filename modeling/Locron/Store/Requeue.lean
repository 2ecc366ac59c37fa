import Locron.Store.QueueEffect

set_option autoImplicit false

/-! # Queueing in terms of the tables

What a new run does to the rows of its job, as one function of a row (`RunRow.makeRoom`), and from
it the tables after a materialized occurrence, a batch of them and a manual request. Definitions,
revisions and cursors are left alone.
-/

namespace Locron

namespace RunRow

def makeRoom (job : Uuid) (now : Int) (r : RunRow) : RunRow :=
  if r.jobId = job && r.superseded then r.supersede now
  else if r.jobId = job && r.state.isLive then r.requestReplacement now
  else r

/-- The columns that identify a run and say what it does: no operation changes them. -/
structure SameRun (r r' : RunRow) : Prop where
  id : r'.id = r.id
  jobId : r'.jobId = r.jobId
  revision : r'.revision = r.revision
  trigger : r'.trigger = r.trigger
  nominal : r'.nominal = r.nominal
  queueSequence : r'.queueSequence = r.queueSequence
  snapshot : r'.snapshot = r.snapshot

theorem SameRun.refl (r : RunRow) : SameRun r r := ⟨rfl, rfl, rfl, rfl, rfl, rfl, rfl⟩

variable {r : RunRow}

theorem SameRun.trans {r' r'' : RunRow} (h : SameRun r r') (h' : SameRun r' r'') :
    SameRun r r'' :=
  ⟨h'.id.trans h.id, h'.jobId.trans h.jobId, h'.revision.trans h.revision,
    h'.trigger.trans h.trigger, h'.nominal.trans h.nominal,
    h'.queueSequence.trans h.queueSequence, h'.snapshot.trans h.snapshot⟩

theorem sameRun_makeRoom (job : Uuid) (now : Int) (r : RunRow) :
    SameRun r (r.makeRoom job now) := by
  unfold makeRoom
  split
  · exact ⟨rfl, rfl, rfl, rfl, rfl, rfl, rfl⟩
  split
  · exact ⟨rfl, rfl, rfl, rfl, rfl, rfl, rfl⟩
  · exact .refl r

theorem pending_of_superseded (h : r.superseded = true) : r.state.isPending = true := by
  simp only [superseded, Bool.or_eq_true, Bool.and_eq_true, decide_eq_true_eq] at h
  rcases h with h | ⟨h, -⟩
  · rw [h]; rfl
  · rw [h]; rfl

/-- Making room leaves a quarantine alone. -/
theorem quarantined_makeRoom {job : Uuid} {now : Int} (h : r.quarantined = true) :
    (r.makeRoom job now).quarantined = true := by
  unfold makeRoom
  split
  · next hs =>
    simp only [Bool.and_eq_true, decide_eq_true_eq] at hs
    simp only [quarantined, Bool.and_eq_true, decide_eq_true_eq] at h
    have hpending := pending_of_superseded hs.2
    rw [h.1] at hpending
    cases hpending
  · split
    · exact h
    · exact h

end RunRow

def CursorRow.advance (u : CursorUpdate) (now : Int) (c : CursorRow) : CursorRow :=
  { c with
    cursor := u.newCursor
    oneTimeResolved := c.oneTimeResolved || u.resolveOneTime
    updatedAt := now
    disabledSince := none }

namespace Store

structure KeepsDefinitions (s s' : Store) : Prop where
  jobs : s'.jobs = s.jobs
  revisions : s'.revisions = s.revisions
  cursors : s'.cursors = s.cursors

theorem KeepsDefinitions.refl (s : Store) : KeepsDefinitions s s := ⟨rfl, rfl, rfl⟩

variable {s s' : Store}

theorem KeepsDefinitions.trans {s'' : Store} (h : KeepsDefinitions s s')
    (h' : KeepsDefinitions s' s'') : KeepsDefinitions s s'' :=
  ⟨h'.jobs.trans h.jobs, h'.revisions.trans h.revisions, h'.cursors.trans h.cursors⟩

/-! ## Making room -/

section MakeRoom

variable (s : Store) (now : Int) (job successor : Uuid)

theorem rows_foldl_supersedeRun (runs : List Uuid) :
    (runs.foldl (fun s run => s.supersedeRun now job successor run) s).runs.rows
      = s.runs.rows.map (fun r => if decide (r.id ∈ runs) && r.state.isPending then r.supersede now
        else r) := by
  induction runs generalizing s with
  | nil => simp
  | cons run runs ih =>
    rw [List.foldl_cons, ih]
    have hrows : (s.supersedeRun now job successor run).runs.rows
        = s.runs.rows.map (fun r => if r.id = run && r.state.isPending then r.supersede now
          else r) := rfl
    rw [hrows, List.map_map]
    apply List.map_congr_left
    intro r _
    simp only [Function.comp_apply, List.mem_cons]
    -- a superseded row is pending no more, so it is changed once
    by_cases hp : r.state.isPending = true
    · by_cases hid : r.id = run
      · have hdone : (r.supersede now).state.isPending = false := rfl
        simp [hid, hp, hdone]
      · simp [hid, hp]
    · simp [hp]

theorem mem_supersededRuns {r : RunRow} (hr : r ∈ s.runs.rows) :
    r.id ∈ s.supersededRuns job ↔ r.jobId = job ∧ r.superseded = true := by
  simp only [supersededRuns, List.mem_map, List.mem_insertionSort, List.mem_filter,
    Bool.and_eq_true, decide_eq_true_eq]
  constructor
  · rintro ⟨r', ⟨hr', h⟩, hid⟩
    rw [← s.runs.eq_of_key_eq hr' hr hid]
    exact h
  · exact fun h => ⟨r, ⟨hr, h⟩, rfl⟩

theorem rows_supersedeForReplacement :
    (s.supersedeForReplacement job now successor).runs.rows
      = s.runs.rows.map (RunRow.makeRoom job now) := by
  have hrows : (s.supersedeForReplacement job now successor).runs.rows
      = ((s.supersededRuns job).foldl (fun s run => s.supersedeRun now job successor run)
        s).runs.rows.map (fun r => if r.jobId = job && r.state.isLive then r.requestReplacement now
          else r) := by
    unfold supersedeForReplacement
    dsimp only
    rw [apply_ite (fun s : Store => s.runs.rows)]
    exact ite_self _
  rw [hrows, rows_foldl_supersedeRun, List.map_map]
  apply List.map_congr_left
  intro r hr
  simp only [Function.comp_apply, s.mem_supersededRuns job hr, RunRow.makeRoom]
  by_cases hs : r.jobId = job ∧ r.superseded = true
  · have hpending := RunRow.pending_of_superseded hs.2
    simp [hs.1, hs.2, hpending, RunRow.supersede, RunState.isLive]
  have hnot : (decide (r.jobId = job) && r.superseded) = false := by
    simpa using hs
  simp [hs]

theorem keepsDefinitions_supersedeForReplacement :
    KeepsDefinitions s (s.supersedeForReplacement job now successor) ∧
      (s.supersedeForReplacement job now successor).nextQueueSequence = s.nextQueueSequence := by
  have hfold : ∀ (runs : List Uuid) (s : Store),
      KeepsDefinitions s (runs.foldl (fun s run => s.supersedeRun now job successor run) s) ∧
        (runs.foldl (fun s run => s.supersedeRun now job successor run) s).nextQueueSequence
          = s.nextQueueSequence := by
    intro runs
    induction runs with
    | nil => exact fun s => ⟨.refl s, rfl⟩
    | cons run runs ih =>
      intro s
      have hfirst : KeepsDefinitions s (s.supersedeRun now job successor run) := ⟨rfl, rfl, rfl⟩
      obtain ⟨hkeeps, hsequence⟩ := ih (s.supersedeRun now job successor run)
      exact ⟨hfirst.trans hkeeps, hsequence⟩
  obtain ⟨hkeeps, hsequence⟩ := hfold (s.supersededRuns job) s
  unfold supersedeForReplacement
  dsimp only
  split
  · exact ⟨hkeeps.trans ⟨rfl, rfl, rfl⟩, hsequence⟩
  · exact ⟨hkeeps.trans ⟨rfl, rfl, rfl⟩, hsequence⟩

end MakeRoom

/-! ## Inserting -/

/-- What becomes of a new run of the job. -/
def decision (s : Store) (job : Uuid) (meetsOverlap : Bool) (policy : SnapshotAdmissionPolicy) :
    OverlapDecision :=
  overlapDecision (s.jobQuarantined job) meetsOverlap (s.activeCount job) policy

/-- The rows after room was made for a new run, if it is a candidate. -/
def roomRows (s : Store) (job : Uuid) (now : Int) (candidate : Bool) : List RunRow :=
  if candidate then s.runs.rows.map (RunRow.makeRoom job now) else s.runs.rows

/-- The state in which the row of a new run is inserted. -/
def room (s : Store) (job : Uuid) (now : Int) (run : Uuid) (candidate : Bool) : Store :=
  if candidate then s.takeQueueSequence.2.supersedeForReplacement job now run
  else s.takeQueueSequence.2

theorem rows_room (s : Store) (job : Uuid) (now : Int) (run : Uuid) (candidate : Bool) :
    (s.room job now run candidate).runs.rows = s.roomRows job now candidate := by
  unfold room roomRows
  split
  · exact rows_supersedeForReplacement s.takeQueueSequence.2 now job run
  · rfl

theorem keepsDefinitions_room (s : Store) (job : Uuid) (now : Int) (run : Uuid)
    (candidate : Bool) :
    KeepsDefinitions s (s.room job now run candidate) ∧
      (s.room job now run candidate).nextQueueSequence = s.nextQueueSequence + 1 := by
  unfold room
  split
  · have hfirst : KeepsDefinitions s s.takeQueueSequence.2 := ⟨rfl, rfl, rfl⟩
    obtain ⟨hkeeps, hsequence⟩ :=
      keepsDefinitions_supersedeForReplacement s.takeQueueSequence.2 now job run
    exact ⟨hfirst.trans hkeeps, hsequence⟩
  · exact ⟨⟨rfl, rfl, rfl⟩, rfl⟩

variable {job : Uuid} {now : Int}

/-- Each row after making room comes from one before, and each one before is still there. -/
theorem of_mem_roomRows {candidate : Bool} {r' : RunRow} (h : r' ∈ s.roomRows job now candidate) :
    ∃ r ∈ s.runs.rows, r' = if candidate then r.makeRoom job now else r := by
  unfold roomRows at h
  split at h
  · next hc =>
    obtain ⟨r, hr, rfl⟩ := List.mem_map.mp h
    exact ⟨r, hr, by rw [if_pos hc]⟩
  · next hc => exact ⟨r', h, by rw [if_neg hc]⟩

theorem sameRun_of_mem_roomRows {candidate : Bool} {r' : RunRow}
    (h : r' ∈ s.roomRows job now candidate) : ∃ r ∈ s.runs.rows, r.SameRun r' := by
  obtain ⟨r, hr, rfl⟩ := of_mem_roomRows h
  refine ⟨r, hr, ?_⟩
  split
  · exact r.sameRun_makeRoom job now
  · exact .refl r

theorem mem_roomRows {r : RunRow} (h : r ∈ s.runs.rows) (job : Uuid) (now : Int)
    (candidate : Bool) :
    (if candidate then r.makeRoom job now else r) ∈ s.roomRows job now candidate := by
  unfold roomRows
  split
  · next hc => exact List.mem_map.mpr ⟨r, h, rfl⟩
  · next hc => exact h

/-- An inserted row broke no constraint and is all that is new. -/
theorem insertRun_ok {row : RunRow} (h : s.insertRun row = .ok s') :
    s.runConflict row = false ∧ s.runReferences row = true ∧
      s'.runs.rows = s.runs.rows ++ [row] ∧ KeepsDefinitions s s' ∧
      s'.nextQueueSequence = s.nextQueueSequence := by
  unfold insertRun at h
  obtain ⟨hconflict, h⟩ := Except.guard_eq_ok.mp h
  split at h
  · next hreferences =>
    split at h
    · next runs hinsert =>
      cases h
      exact ⟨by simpa using hconflict, hreferences, (Table.insert_eq_some hinsert).2,
        ⟨rfl, rfl, rfl⟩, rfl⟩
    · cases h
  · cases h

theorem exists_insertRun {row : RunRow} (hconflict : s.runConflict row = false)
    (hreferences : s.runReferences row = true) : ∃ s', s.insertRun row = .ok s' := by
  have hfresh : s.runs.find row.id = none := by
    rw [Table.find_eq_none]
    intro r hr hid
    simp only [runConflict, Bool.or_eq_false_iff] at hconflict
    have hno := hconflict.1.1.1.1
    rw [← Bool.not_eq_true, Table.exist_iff] at hno
    exact hno ⟨r, hr, by simpa using hid⟩
  obtain ⟨runs, hinsert⟩ := Table.exists_insert hfresh
  exact ⟨{ s with runs := runs }, by simp [insertRun, hconflict, hreferences, hinsert]⟩

/-! ## Materializing -/

section Materialize

variable {s s' : Store} {now : Int}

/-- One occurrence: room is made for it, and its row is added unless it breaks a constraint. -/
theorem materializeRun_ok {run : NewScheduledRun} {policy : SnapshotAdmissionPolicy}
    {inserted : Bool} (h : s.materializeRun now run policy = .ok (inserted, s')) :
    let d := s.decision run.jobId (run.trigger != .catchUp) policy
    let row := newRunRow run s.nextQueueSequence d now
    KeepsDefinitions s s' ∧ s'.nextQueueSequence = s.nextQueueSequence + 1 ∧
      inserted = !(s.room run.jobId now run.id d.candidate).runConflict row ∧
      (inserted = true → s.runReferences row = true) ∧
      s'.runs.rows = s.roomRows run.jobId now d.candidate ++ if inserted then [row] else [] := by
  intro d row
  have hroom := keepsDefinitions_room s run.jobId now run.id d.candidate
  have hrows := rows_room s run.jobId now run.id d.candidate
  have h' : (s.room run.jobId now run.id d.candidate).insertRunOrIgnore row
      = .ok (inserted, s') := h
  unfold insertRunOrIgnore at h'
  split at h'
  · next hconflict =>
    cases h'
    exact ⟨hroom.1, hroom.2, by simp [hconflict], by simp, by simp [hrows]⟩
  next hconflict =>
  obtain ⟨s₁, hs₁, heq⟩ := Except.map_eq_ok.mp h'
  cases heq
  obtain ⟨-, hreferences, hinserted, hkeeps, hsequence⟩ := insertRun_ok hs₁
  refine ⟨hroom.1.trans hkeeps, hsequence.trans hroom.2, by simp [hconflict], ?_, ?_⟩
  · intro _
    simpa only [runReferences, hroom.1.jobs, hroom.1.revisions] using hreferences
  · rw [hinserted, hrows, if_pos rfl]

/-- A row after one occurrence continues one from before, or is the row of the occurrence. -/
theorem row_materializeRun {run : NewScheduledRun} {policy : SnapshotAdmissionPolicy}
    {inserted : Bool} (h : s.materializeRun now run policy = .ok (inserted, s')) {r' : RunRow}
    (hr' : r' ∈ s'.runs.rows) : (∃ r ∈ s.runs.rows, r.SameRun r') ∨
      (r'.id = run.id ∧ r'.jobId = run.jobId ∧ r'.revision = run.revision ∧
        r'.trigger = run.trigger ∧ r'.nominal = some run.nominal) := by
  rw [(materializeRun_ok h).2.2.2.2] at hr'
  rcases List.mem_append.mp hr' with hr' | hr'
  · exact Or.inl (sameRun_of_mem_roomRows hr')
  split at hr'
  · rw [List.mem_singleton.mp hr']
    exact Or.inr ⟨rfl, rfl, rfl, rfl, rfl⟩
  · cases hr'

/-- What each occurrence of a batch preserves, the batch preserves. -/
theorem materializeRuns_induction {motive : Store → Prop}
    {runs : List (NewScheduledRun × SnapshotAdmissionPolicy)} {result result' : MaterializedRun}
    (hstep : ∀ {s s' : Store} {run : NewScheduledRun} {policy : SnapshotAdmissionPolicy}
      {inserted : Bool}, (run, policy) ∈ runs → motive s →
      s.materializeRun now run policy = .ok (inserted, s') → motive s')
    (hs : motive s) (h : s.materializeRuns now runs result = .ok (result', s')) : motive s' := by
  induction runs generalizing s result with
  | nil =>
    cases h
    exact hs
  | cons x runs ih =>
    obtain ⟨run, policy⟩ := x
    unfold materializeRuns at h
    split at h
    · cases h
    · next hrun =>
      exact ih (fun hmem => hstep (List.mem_cons_of_mem _ hmem)) (hstep (by simp) hs hrun) h
    · next hrun =>
      exact ih (fun hmem => hstep (List.mem_cons_of_mem _ hmem)) (hstep (by simp) hs hrun) h

theorem of_preparePolicies {revision : Nat} {runs : List NewScheduledRun}
    {prepared : List (NewScheduledRun × SnapshotAdmissionPolicy)}
    (h : preparePolicies job revision runs = .ok prepared) :
    prepared.map Prod.fst = runs ∧ ∀ x ∈ prepared, x.1.jobId = job ∧ x.1.revision = revision ∧
      snapshotAdmissionPolicy x.1.snapshot = .ok x.2 := by
  induction runs generalizing prepared with
  | nil =>
    cases h
    simp
  | cons run runs ih =>
    unfold preparePolicies at h
    obtain ⟨hmatch, h⟩ := Except.guard_eq_ok.mp h
    split at h
    · cases h
    · cases h
    next policy rest hpolicy hrest =>
    cases h
    obtain ⟨hmap, hall⟩ := ih hrest
    refine ⟨by rw [List.map_cons, hmap], ?_⟩
    intro x hx
    rcases List.mem_cons.mp hx with rfl | hx
    · push Not at hmatch
      exact ⟨hmatch.1, hmatch.2, hpolicy⟩
    · exact hall x hx

/-- An advance finds the cursor of the live job's current revision where it expects it, and moves
that cursor; a resolved one-time job is disabled. -/
theorem advanceCursor_ok {cursor : CursorUpdate} (h : s.advanceCursor job cursor now = .ok s') :
    (∃ j c, s.liveJob job = some j ∧ j.currentRevision = cursor.expectedRevision ∧
      s.cursors.find (job, cursor.expectedRevision) = some c ∧ c.cursor = cursor.expectedCursor) ∧
    s'.runs = s.runs ∧ s'.nextQueueSequence = s.nextQueueSequence ∧ s'.revisions = s.revisions ∧
    (∀ id, s'.jobs.find id = (s.jobs.find id).map (fun j => if j.id = job && cursor.resolveOneTime
      then { j with enabled := false, updatedAt := now } else j)) ∧
    ∀ key, s'.cursors.find key = (s.cursors.find key).map (fun c =>
      if c.jobId = job && c.revision = cursor.expectedRevision then c.advance cursor now
      else c) := by
  unfold advanceCursor at h
  obtain ⟨hcount, h⟩ := Except.guard_eq_ok.mp h
  dsimp only at h
  -- the one counted row
  have hpos : 0 < s.cursors.rows.countP (fun c => c.jobId = job
      && c.revision = cursor.expectedRevision
      && (s.liveJob job).map (fun j => j.currentRevision) = some c.revision
      && c.cursor = cursor.expectedCursor) := by
    have hone := not_not.mp hcount
    show 0 < s.cursors.count _
    omega
  obtain ⟨c₀, hc₀, hmoved⟩ := List.countP_pos_iff.mp hpos
  simp only [Bool.and_eq_true, decide_eq_true_eq] at hmoved
  obtain ⟨⟨⟨hjob, hrevision⟩, hlive⟩, hcursor⟩ := hmoved
  obtain ⟨j, hj, hcurrent⟩ := Option.map_eq_some_iff.mp hlive
  have hfind : s.cursors.find (job, cursor.expectedRevision) = some c₀ :=
    Table.find_eq_some.mpr ⟨hc₀, by rw [CursorRow.key, hjob, hrevision]⟩
  have hexpected : j.currentRevision = cursor.expectedRevision := hcurrent.trans hrevision
  -- the key alone decides which row is moved
  have hupdate : ∀ key, (s.cursors.find key).map (fun c => if (c.jobId = job
      && c.revision = cursor.expectedRevision
      && (s.liveJob job).map (fun j => j.currentRevision) = some c.revision
      && c.cursor = cursor.expectedCursor) = true then c.advance cursor now else c)
      = (s.cursors.find key).map (fun c =>
        if c.jobId = job && c.revision = cursor.expectedRevision then c.advance cursor now
        else c) := by
    intro key
    cases hc : s.cursors.find key with
    | none => rfl
    | some c =>
      simp only [Option.map_some, Option.some.injEq]
      by_cases hkey : c.jobId = job ∧ c.revision = cursor.expectedRevision
      · have hsame : c = c₀ := by
          refine s.cursors.eq_of_key_eq (Table.mem_of_find hc) hc₀ ?_
          simp only [CursorRow.key, hkey.1, hkey.2, hjob, hrevision]
        simp only [hsame, hjob, hrevision, hj, hexpected, hcursor, Option.map_some, decide_true,
          Bool.and_self, if_true]
      · have hnot : (decide (c.jobId = job) && decide (c.revision = cursor.expectedRevision))
            = false := by simpa using hkey
        simp only [hnot, Bool.false_and, Bool.false_eq_true, if_false]
  refine ⟨⟨j, c₀, hj, hexpected, hfind, hcursor⟩, ?_⟩
  split at h
  · next hresolve =>
    cases h
    refine ⟨rfl, rfl, rfl, ?_, ?_⟩
    · intro id
      simp only [event, updateJobs, updateCursors, Table.find_update, hresolve, Bool.and_true]
    · intro key
      rw [← hupdate key]
      exact @Table.find_update _ _ _ _ _ (CursorRow.advance cursor now) (fun _ => rfl) _ key
  · next hresolve =>
    cases h
    refine ⟨rfl, rfl, rfl, ?_, ?_⟩
    · intro id
      simp [updateCursors, hresolve]
    · intro key
      rw [← hupdate key]
      exact @Table.find_update _ _ _ _ _ (CursorRow.advance cursor now) (fun _ => rfl) _ key

theorem recordSummaries_keeps (s : Store) (job : Uuid) (summaries : List ReconciliationSummary)
    (now : Int) :
    let s' := s.recordSummaries job summaries now
    KeepsDefinitions s s' ∧ s'.runs = s.runs ∧ s'.nextQueueSequence = s.nextQueueSequence := by
  unfold recordSummaries
  induction summaries generalizing s with
  | nil => exact ⟨.refl s, rfl, rfl⟩
  | cons x summaries ih =>
    obtain ⟨hkeeps, hruns, hsequence⟩ := ih (s.event now x.kind (some job) none (summaryDetails x))
    have hevent : KeepsDefinitions s (s.event now x.kind (some job) none (summaryDetails x)) :=
      ⟨rfl, rfl, rfl⟩
    exact ⟨hevent.trans hkeeps, hruns, hsequence⟩

/-- The parts of a committed materialization. -/
theorem materialize_ok {cursor : CursorUpdate} {runs : List NewScheduledRun}
    {summaries : List ReconciliationSummary} {result : MaterializedRun}
    (h : s.materializeWithSummaries job cursor runs summaries now = .ok (result, s')) :
    ∃ prepared s₁ s₂, preparePolicies job cursor.expectedRevision runs = .ok prepared ∧
      s.advanceCursor job cursor now = .ok s₁ ∧
      s₁.materializeRuns now prepared ⟨0, 0⟩ = .ok (result, s₂) ∧
      s' = s₂.recordSummaries job summaries now := by
  unfold materializeWithSummaries at h
  split at h
  · cases h
  next prepared hprepared =>
  obtain ⟨-, h⟩ := Except.guard_eq_ok.mp h
  split at h
  · cases h
  next s₁ hcursor =>
  split at h
  · cases h
  next result₂ s₂ hruns =>
  cases h
  exact ⟨prepared, s₁, s₂, hprepared, hcursor, hruns, rfl⟩

end Materialize

/-! ## Manual runs -/

/-- A manual request: room is made for it, and its row is added. -/
theorem enqueueManual_ok {revision : Nat} {snapshot : Snapshot}
    {run : Uuid} (h : s.enqueueManual job revision snapshot run now = .ok s') :
    ∃ policy, snapshotAdmissionPolicy snapshot = .ok policy ∧
      let d := s.decision job true policy
      let row := manualRunRow run job revision snapshot s.nextQueueSequence d now
      KeepsDefinitions s s' ∧ s'.nextQueueSequence = s.nextQueueSequence + 1 ∧
        (s.room job now run d.candidate).runConflict row = false ∧
        s.runReferences row = true ∧
        s'.runs.rows = s.roomRows job now d.candidate ++ [row] := by
  unfold enqueueManual at h
  split at h
  · cases h
  next policy hpolicy =>
  refine ⟨policy, hpolicy, ?_⟩
  split at h
  · cases h
  split at h
  · cases h
  obtain ⟨-, h⟩ := Except.guard_eq_ok.mp h
  dsimp only at h
  obtain ⟨s₁, hs₁, heq⟩ := Except.map_eq_ok.mp h
  cases heq
  intro d row
  have hroom := keepsDefinitions_room s job now run d.candidate
  have hs₁' : (s.room job now run d.candidate).insertRun row = .ok s₁ := hs₁
  obtain ⟨hconflict, hreferences, hinserted, hkeeps, hsequence⟩ := insertRun_ok hs₁'
  have hevent : KeepsDefinitions s₁
      (s₁.event now "manual_enqueued" (some job) (some run) "\x7b\x7d") := ⟨rfl, rfl, rfl⟩
  refine ⟨(hroom.1.trans hkeeps).trans hevent, hsequence.trans hroom.2, hconflict, ?_, ?_⟩
  · simpa only [runReferences, hroom.1.jobs, hroom.1.revisions] using hreferences
  · rw [← rows_room s job now run d.candidate]
    exact hinserted

end Store

end Locron
