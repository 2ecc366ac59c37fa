import Locron.Store.References

set_option autoImplicit false

/-! # Schedule positions

The position of a job is the cursor of its current revision. Only a materialization moves it, only a
new revision replaces it; every other operation leaves it in place and keeps the record that the job
was disabled (`apply_keepsPositions`). Runs other than manual ones come from materializations only.
-/

namespace Locron

/-- The operations that move a position, or give a job a new one. -/
def Op.repositions : Op → Bool
  | .updateJob _ | .applyImport _ | .materialize _ _ _ _ _ => true
  | _ => false

namespace Store

def position (s : Store) (job : Uuid) : Option (JobRow × CursorRow) :=
  (s.jobs.find job).bind (fun j =>
    (s.cursors.find (job, j.currentRevision)).map (fun c => (j, c)))

variable {s : Store}

theorem position_eq_some {job : Uuid} {j : JobRow} {c : CursorRow} :
    s.position job = some (j, c) ↔
      s.jobs.find job = some j ∧ s.cursors.find (job, j.currentRevision) = some c := by
  unfold position
  rw [Option.bind_eq_some_iff]
  constructor
  · rintro ⟨j', hj', hc⟩
    obtain ⟨c', hc', heq⟩ := Option.map_eq_some_iff.mp hc
    cases heq
    exact ⟨hj', hc'⟩
  · rintro ⟨hj, hc⟩
    exact ⟨j, hj, Option.map_eq_some_iff.mpr ⟨c, hc, rfl⟩⟩

variable {id : Uuid} {record : JobRecord}

theorem position_of_readJob
    (h : s.readJob id = some record) : ∃ j c, s.position id = some (j, c) ∧ record.id = id ∧
      j.removedAt = none ∧ record.enabled = j.enabled ∧ record.currentRevision = j.currentRevision ∧
      record.cursor = c.cursor ∧ record.disabledSince = c.disabledSince := by
  obtain ⟨j, r, c, hj, -, hc, rfl⟩ := of_readJob h
  obtain ⟨hfind, hlive⟩ := Option.filter_eq_some_iff.mp hj
  exact ⟨j, c, position_eq_some.mpr ⟨hfind, hc⟩, rfl, Option.isNone_iff_eq_none.mp hlive, rfl, rfl,
    rfl, rfl⟩

variable {s' : Store}

/-! ## Operations that keep positions -/

/-- The cursor stays, and so does the record that the job was disabled; a job that becomes enabled
has that record. -/
structure KeepsPosition (j : JobRow) (c : CursorRow) (j' : JobRow) (c' : CursorRow) : Prop where
  cursor : c'.cursor = c.cursor
  disabledSince : c.disabledSince.isSome = true → c'.disabledSince.isSome = true
  enabled : j'.enabled = true → j.enabled = true ∨ c'.disabledSince.isSome = true

theorem KeepsPosition.refl (j : JobRow) (c : CursorRow) : KeepsPosition j c j c :=
  ⟨rfl, fun h => h, Or.inl⟩

/-- No position is lost, and those that were there are kept. -/
def KeepsPositions (s s' : Store) : Prop :=
  ∀ job j c, s.position job = some (j, c) →
    ∃ j' c', s'.position job = some (j', c') ∧ KeepsPosition j c j' c'

theorem keepsPositions_of_columns {f : Uuid → JobRow → JobRow}
    {g : Uuid × Nat → CursorRow → CursorRow}
    (hjobs : ∀ id, s'.jobs.find id = (s.jobs.find id).map (f id))
    (hcursors : ∀ key, s'.cursors.find key = (s.cursors.find key).map (g key))
    (hrevision : ∀ id j, (f id j).currentRevision = j.currentRevision)
    (hkeeps : ∀ id j c, s.jobs.find id = some j → KeepsPosition j c (f id j)
      (g (id, j.currentRevision) c)) : KeepsPositions s s' := by
  intro job j c h
  obtain ⟨hj, hc⟩ := position_eq_some.mp h
  refine ⟨f job j, g (job, j.currentRevision) c, position_eq_some.mpr ⟨?_, ?_⟩, hkeeps job j c hj⟩
  · rw [hjobs, hj, Option.map_some]
  · rw [hrevision, hcursors, hc, Option.map_some]

theorem keepsPositions_of_keepsDefinitions (h : KeepsDefinitions s s') :
    KeepsPositions s s' := by
  intro job j c hposition
  refine ⟨j, c, ?_, .refl j c⟩
  unfold position
  rw [h.jobs, h.cursors]
  exact hposition

variable {now : Int}

theorem AddsRevision.cursors_persist {job : Uuid} {revision : Nat}
    {definition : Snapshot} {cursor : Int} {enabled : Bool}
    (h : AddsRevision job revision definition cursor enabled now s s') {key : Uuid × Nat}
    {c : CursorRow} (hc : s.cursors.find key = some c) : s'.cursors.find key = some c := by
  have hne : (job, revision) ≠ key := by
    rintro rfl
    rw [h.fresh.2] at hc
    cases hc
  rw [h.cursors, if_neg hne, hc]

theorem position_created {job : CreateJob} (h : Created job now s s')
    {x : JobRow × CursorRow} (hx : s.position id = some x) :
    s'.position id = some x := by
  obtain ⟨j, c⟩ := x
  obtain ⟨hj, hc⟩ := position_eq_some.mp hx
  refine position_eq_some.mpr ⟨?_, ?_⟩
  · have hne : job.id ≠ id := by
      rintro rfl
      rw [h.unknown] at hj
      cases hj
    rw [h.jobs, if_neg hne, hj]
  · exact h.cursors_persist hc

theorem keepsPositions_of_created {job : CreateJob}
    (h : Created job now s s') : KeepsPositions s s' :=
  fun _ j c hposition => ⟨j, c, position_created h hposition, .refl j c⟩

/-- **Positions are kept** by all operations but new revisions and materializations. -/
theorem apply_keepsPositions {op : Op} (hop : op.repositions = false)
    (h : s.apply op = .ok s') : KeepsPositions s s' := by
  cases hedits : op.edits with
  | false =>
    cases hqueues : op.queues with
    | false =>
      obtain ⟨finished, hsettles, -⟩ := apply_settles hedits hqueues h
      obtain ⟨now, hjobs⟩ := hsettles.jobs
      refine keepsPositions_of_columns (g := fun _ c => c) hjobs ?_ ?_ ?_
      · intro key
        rw [hsettles.cursors, Option.map_id']
      · intro id j
        split <;> rfl
      · intro id j c _
        -- a removed job is not enabled
        refine ⟨rfl, fun hc => hc, ?_⟩
        split
        · exact fun hc => by cases hc
        · exact Or.inl
    | true =>
      cases op with
      | enqueueManual job revision snapshot run now =>
        obtain ⟨policy, -, hkeeps, -⟩ := enqueueManual_ok h
        exact keepsPositions_of_keepsDefinitions hkeeps
      | materialize job cursor runs summaries now => cases hop
      | _ => cases hqueues
  | true =>
    cases op with
    | createJob job => exact keepsPositions_of_created (createJob_ok h)
    | setEnabled job enabled now =>
      obtain ⟨j₀, hlive, -, -, -, hjobs, hcursors⟩ := setEnabled_ok h
      refine keepsPositions_of_columns hjobs hcursors ?_ ?_
      · intro id j
        split <;> rfl
      · intro id j c hj
        have hid : j.id = id := Table.key_of_find hj
        by_cases hjob : id = job
        · -- the flag of the job itself: becoming enabled or disabled is remembered
          subst hjob
          obtain rfl : j₀ = j :=
            Option.some.inj ((Option.filter_eq_some_iff.mp hlive).1.symm.trans hj)
          rw [if_pos hid]
          by_cases hsame : enabled = j₀.enabled
          · rw [if_neg (by simp [hsame])]
            exact ⟨rfl, fun hc => hc, fun hc => Or.inl (hsame ▸ hc)⟩
          rw [if_pos ⟨rfl, hsame⟩]
          have hremembers : (c.remember enabled now).disabledSince.isSome = true := by
            unfold CursorRow.remember
            cases c.disabledSince <;> rfl
          exact ⟨rfl, fun _ => hremembers, fun _ => Or.inr hremembers⟩
        · rw [if_neg (by rw [hid]; exact hjob), if_neg (by simp [hjob])]
          exact .refl j c
    | removeJob job now =>
      obtain ⟨-, -, -, hcursors, hjobs⟩ := removeJob_ok h
      refine keepsPositions_of_columns (g := fun _ c => c) hjobs ?_ ?_ ?_
      · intro key
        rw [hcursors, Option.map_id']
      · intro id j
        split <;> rfl
      · intro id j c _
        refine ⟨rfl, fun hc => hc, ?_⟩
        split
        · exact fun hc => by cases hc
        · exact Or.inl
    | updateJob | applyImport => cases hop
    | _ => cases hedits

/-! ## Revisions and materializations -/

theorem position_revised {job : UpdateJob} (h : Revised job now s s') (id : Uuid) :
    (id ≠ job.id → s'.position id = s.position id) ∧
      (id = job.id → ∃ j, s.liveJob id = some j ∧ j.currentRevision = job.expectedRevision ∧
        s'.position id = some (j.revise job now,
          .new job.id (job.expectedRevision + 1) job.cursor job.enabled now)) := by
  constructor
  · intro hne
    have hjob : s'.jobs.find id = s.jobs.find id := by
      rw [h.jobs]
      cases hj : s.jobs.find id with
      | none => rfl
      | some j =>
        have hid : j.id = id := Table.key_of_find hj
        rw [Option.map_some, if_neg (by rw [hid]; exact hne)]
    unfold position
    rw [hjob]
    refine Option.bind_congr fun j _ => ?_
    rw [h.cursors, if_neg (by simp [Ne.symm hne])]
  · rintro rfl
    obtain ⟨j, hlive, hrevision⟩ := h.live
    have hj := (Option.filter_eq_some_iff.mp hlive).1
    have hid : j.id = job.id := Table.key_of_find hj
    refine ⟨j, hlive, hrevision, position_eq_some.mpr ⟨?_, ?_⟩⟩
    · rw [h.jobs, hj, Option.map_some, if_pos hid]
    · rw [h.cursors]
      exact if_pos rfl

/-- **Edits of an import, one by one**: each update finds the position that its job had when it
all began. -/
theorem applyImport_position_induction {batch : ImportBatch} {motive : Store → Prop}
    (hcreate : ∀ job t t', motive t → Created job batch.now t t' → motive t')
    (hrevise : ∀ resolution job t t', .update resolution job ∈ batch.jobs →
      (∀ x, s.position job.id = some x → t.position job.id = some x) → motive t →
      Revised job batch.now t t' → motive t')
    (hsame : ∀ t t', motive t → SameTables t t' → motive t') (hs : motive s)
    (h : s.applyImport batch = .ok s') : motive s' := by
  obtain ⟨s₁, ⟨hs₁, -⟩, htables⟩ := applyImport_induction (motive := fun t => motive t ∧
      ∀ key c, s.cursors.find key = some c → t.cursors.find key = some c)
    (fun _ job t t' _ ht hcreated => ⟨hcreate job t t' ht.1 hcreated,
      fun key c hc => hcreated.cursors_persist (ht.2 key c hc)⟩)
    (fun resolution job j t t' hmem hj hj' ht hrevised => by
      refine ⟨hrevise resolution job t t' hmem ?_ ht.1 hrevised,
        fun key c hc => hrevised.cursors_persist (ht.2 key c hc)⟩
      rintro ⟨j₀, c⟩ hposition
      obtain ⟨hj₀, hc⟩ := position_eq_some.mp hposition
      obtain rfl : j = j₀ := Option.some.inj ((Option.filter_eq_some_iff.mp hj).1.symm.trans hj₀)
      exact position_eq_some.mpr ⟨(Option.filter_eq_some_iff.mp hj').1, ht.2 _ c hc⟩)
    ⟨hs, fun _ _ hc => hc⟩ h
  exact hsame s₁ s' hs₁ htables

section Materialize

variable {s s' : Store} {job : Uuid} {cursor : CursorUpdate} {runs : List NewScheduledRun}
  {summaries : List ReconciliationSummary} {now : Int} {result : MaterializedRun}
  (h : s.materializeWithSummaries job cursor runs summaries now = .ok (result, s'))

include h

/-- A materialization moves the cursor of its live job from the expected place; the other positions
stay. -/
theorem position_materialized (id : Uuid) :
    (id ≠ job → s'.position id = s.position id) ∧
      (id = job → ∃ j c j', s.position id = some (j, c) ∧ j.removedAt = none ∧
        j.currentRevision = cursor.expectedRevision ∧ c.cursor = cursor.expectedCursor ∧
        s'.position id = some (j', c.advance cursor now) ∧
          (j'.enabled = true → j.enabled = true)) := by
  obtain ⟨prepared, s₁, s₂, -, hcursor, hruns, rfl⟩ := materialize_ok h
  obtain ⟨⟨j, c, hlive, hrevision, hc, hexpected⟩, -, -, -, hjobs, hcursors⟩ :=
    advanceCursor_ok hcursor
  have hkeeps : KeepsDefinitions s₁ (s₂.recordSummaries job summaries now) :=
    (materializeRuns_induction (motive := fun x => KeepsDefinitions s₁ x)
      (fun _ hx hrun => hx.trans (materializeRun_ok hrun).1) (.refl s₁) hruns).trans
      (recordSummaries_keeps s₂ job summaries now).1
  have hsame : (s₂.recordSummaries job summaries now).position id = s₁.position id := by
    unfold position
    rw [hkeeps.jobs, hkeeps.cursors]
  rw [hsame]
  constructor
  · intro hne
    have hjob : s₁.jobs.find id = s.jobs.find id := by
      rw [hjobs]
      cases hj : s.jobs.find id with
      | none => rfl
      | some j =>
        have hid : j.id = id := Table.key_of_find hj
        simp [hid, hne]
    unfold position
    rw [hjob]
    refine Option.bind_congr fun j _ => ?_
    rw [hcursors]
    cases hc : s.cursors.find (id, j.currentRevision) with
    | none => rfl
    | some c =>
      have hkey : c.jobId = id := congrArg Prod.fst (Table.key_of_find hc)
      simp [hkey, hne]
  · rintro rfl
    obtain ⟨hj, hnone⟩ := Option.filter_eq_some_iff.mp hlive
    have hkey : c.key = (id, cursor.expectedRevision) := Table.key_of_find hc
    have hown : c.jobId = id ∧ c.revision = cursor.expectedRevision := Prod.ext_iff.mp hkey
    have hj₁ := hjobs id
    rw [hj, Option.map_some] at hj₁
    refine ⟨j, c, _, position_eq_some.mpr ⟨hj, by rw [hrevision]; exact hc⟩,
      Option.isNone_iff_eq_none.mp hnone, hrevision, hexpected,
      position_eq_some.mpr ⟨hj₁, ?_⟩, ?_⟩
    · have hcurrent : (if (decide (j.id = id) && cursor.resolveOneTime) = true then
          { j with enabled := false, updatedAt := now } else j).currentRevision
          = cursor.expectedRevision := by
        split <;> exact hrevision
      rw [hcurrent, hcursors, hc, Option.map_some, if_pos (by simp [hown])]
    · split
      · exact fun hc => by cases hc
      · exact fun hc => hc

/-- A row after a materialization continues one from before, or is the row of an occurrence. -/
theorem materialized_rows : ∀ r' ∈ s'.runs.rows, (∃ r ∈ s.runs.rows, r.SameRun r') ∨
    ∃ run ∈ runs, r'.id = run.id ∧ r'.jobId = job ∧ r'.revision = cursor.expectedRevision ∧
      r'.trigger = run.trigger ∧ r'.nominal = some run.nominal := by
  obtain ⟨prepared, s₁, s₂, hprepared, hcursor, hruns, rfl⟩ := materialize_ok h
  obtain ⟨-, hsame, -⟩ := advanceCursor_ok hcursor
  obtain ⟨hfst, hall⟩ := of_preparePolicies hprepared
  rw [(recordSummaries_keeps s₂ job summaries now).2.1]
  refine materializeRuns_induction (motive := fun x => ∀ r' ∈ x.runs.rows,
    (∃ r ∈ s.runs.rows, r.SameRun r') ∨ ∃ run ∈ runs, r'.id = run.id ∧ r'.jobId = job ∧
      r'.revision = cursor.expectedRevision ∧ r'.trigger = run.trigger ∧
      r'.nominal = some run.nominal) ?_ ?_ hruns
  · intro t t' run policy inserted hmem ht hrun r' hr'
    obtain ⟨hjob, hrevision, -⟩ := hall _ hmem
    rcases row_materializeRun hrun hr' with ⟨r, hr, hcont⟩ | ⟨hid, hjob', hrevision', ht', hnominal⟩
    · rcases ht r hr with ⟨r₀, hr₀, hcont₀⟩ | ⟨run₀, hrun₀, h₀, h₁, h₂, h₃, h₄⟩
      · exact Or.inl ⟨r₀, hr₀, hcont₀.trans hcont⟩
      · exact Or.inr ⟨run₀, hrun₀, hcont.id.trans h₀, hcont.jobId.trans h₁,
          hcont.revision.trans h₂, hcont.trigger.trans h₃, hcont.nominal.trans h₄⟩
    · refine Or.inr ⟨run, ?_, hid, hjob'.trans hjob, hrevision'.trans hrevision, ht', hnominal⟩
      rw [← hfst]
      exact List.mem_map.mpr ⟨_, hmem, rfl⟩
  · intro r hr
    rw [hsame] at hr
    exact Or.inl ⟨r, hr, .refl r⟩

end Materialize

theorem apply_continues {op : Op} (howned : s.Owned)
    (hop : ∀ job cursor runs summaries now, op ≠ .materialize job cursor runs summaries now)
    (h : s.apply op = .ok s') {r' : RunRow} (hr' : r' ∈ s'.runs.rows)
    (htrigger : r'.trigger ≠ .manual) : ∃ r ∈ s.runs.rows, r.SameRun r' := by
  cases hqueues : op.queues with
  | false =>
    obtain ⟨r, hr, hcont⟩ := continues_of_not_queues howned hqueues h hr'
    exact ⟨r, hr, hcont.toSameRun⟩
  | true =>
    cases op with
    | enqueueManual job revision snapshot run now =>
      obtain ⟨policy, -, -, -, -, -, hrows⟩ := enqueueManual_ok h
      rw [hrows] at hr'
      rcases List.mem_append.mp hr' with hr' | hr'
      · exact sameRun_of_mem_roomRows hr'
      · rw [List.mem_singleton.mp hr'] at htrigger
        exact absurd rfl htrigger
    | materialize job cursor runs summaries now => exact absurd rfl (hop _ _ _ _ _)
    | _ => cases hqueues

/-! ## One run per occurrence of a revision -/

/-- The index of occurrences: job, revision and nominal time identify a run that is not manual. -/
def OccurrencesUnique (s : Store) : Prop :=
  ∀ r₁ ∈ s.runs.rows, ∀ r₂ ∈ s.runs.rows, r₁.trigger ≠ .manual → r₂.trigger ≠ .manual →
    r₁.jobId = r₂.jobId → r₁.revision = r₂.revision → r₁.nominal = r₂.nominal → r₁.id = r₂.id

namespace OccurrencesUnique

variable {s s' : Store}

theorem of_continues (h : s.OccurrencesUnique) (hrows : ∀ r' ∈ s'.runs.rows,
    r'.trigger ≠ .manual → ∃ r ∈ s.runs.rows, r.SameRun r') : s'.OccurrencesUnique := by
  intro r₁' hr₁' r₂' hr₂' ht₁ ht₂ hjob hrevision hnominal
  obtain ⟨r₁, hr₁, hsame₁⟩ := hrows r₁' hr₁' ht₁
  obtain ⟨r₂, hr₂, hsame₂⟩ := hrows r₂' hr₂' ht₂
  rw [hsame₁.id, hsame₂.id]
  rw [hsame₁.trigger] at ht₁
  rw [hsame₂.trigger] at ht₂
  rw [hsame₁.jobId, hsame₂.jobId] at hjob
  rw [hsame₁.revision, hsame₂.revision] at hrevision
  rw [hsame₁.nominal, hsame₂.nominal] at hnominal
  exact h r₁ hr₁ r₂ hr₂ ht₁ ht₂ hjob hrevision hnominal

theorem of_room (h : s.OccurrencesUnique) (job : Uuid) (now : Int) (run : Uuid)
    (candidate : Bool) : (s.room job now run candidate).OccurrencesUnique := by
  refine h.of_continues ?_
  intro r' hr' _
  rw [rows_room] at hr'
  exact sameRun_of_mem_roomRows hr'

theorem append {row : RunRow} (h : s.OccurrencesUnique) (hconflict : s.runConflict row = false)
    (hrows : s'.runs.rows = s.runs.rows ++ [row]) : s'.OccurrencesUnique := by
  have hother : ∀ r ∈ s.runs.rows, r.trigger ≠ .manual → row.trigger ≠ .manual →
      r.jobId = row.jobId → r.revision = row.revision → r.nominal ≠ row.nominal := by
    intro r hr ht htrow hjob hrevision hnominal
    simp only [runConflict, Bool.or_eq_false_iff] at hconflict
    have hfree := hconflict.1.1.2
    rw [Bool.and_eq_false_iff] at hfree
    rcases hfree with hfree | hfree
    · simp [htrow] at hfree
    · rw [← Bool.not_eq_true, Table.exist_iff] at hfree
      exact hfree ⟨r, hr, by simp [ht, hjob, hrevision, hnominal]⟩
  intro r₁ hr₁ r₂ hr₂ ht₁ ht₂ hjob hrevision hnominal
  rw [hrows, List.mem_append, List.mem_singleton] at hr₁ hr₂
  rcases hr₁ with hr₁ | rfl
  · rcases hr₂ with hr₂ | rfl
    · exact h r₁ hr₁ r₂ hr₂ ht₁ ht₂ hjob hrevision hnominal
    · exact absurd hnominal (hother r₁ hr₁ ht₁ ht₂ hjob hrevision)
  rcases hr₂ with hr₂ | rfl
  · exact absurd hnominal.symm (hother r₂ hr₂ ht₂ ht₁ hjob.symm hrevision.symm)
  · rfl

theorem materializeRun {run : NewScheduledRun} {policy : SnapshotAdmissionPolicy}
    {inserted : Bool} (h : s.OccurrencesUnique)
    (hrun : s.materializeRun now run policy = .ok (inserted, s')) : s'.OccurrencesUnique := by
  obtain ⟨-, -, hinserted, -, hrows⟩ := materializeRun_ok hrun
  rw [← rows_room s run.jobId now run.id] at hrows
  cases inserted with
  | false =>
    rw [if_neg Bool.false_ne_true, List.append_nil] at hrows
    refine (h.of_room run.jobId now run.id
      (s.decision run.jobId (run.trigger != .catchUp) policy).candidate).of_continues ?_
    intro r' hr' _
    rw [hrows] at hr'
    exact ⟨r', hr', .refl r'⟩
  | true =>
    rw [if_pos rfl] at hrows
    refine (h.of_room run.jobId now run.id _).append ?_ hrows
    simpa using hinserted.symm

theorem apply {op : Op} (howned : s.Owned) (h : s.OccurrencesUnique)
    (happly : s.apply op = .ok s') : s'.OccurrencesUnique := by
  by_cases hop : ∃ job cursor runs summaries now, op = .materialize job cursor runs summaries now
  · obtain ⟨job, cursor, runs, summaries, now, rfl⟩ := hop
    obtain ⟨⟨result, s₀⟩, hs₀, rfl⟩ := Except.map_eq_ok.mp happly
    obtain ⟨prepared, s₁, s₂, -, hcursor, hruns, rfl⟩ := materialize_ok hs₀
    obtain ⟨-, hsame, -⟩ := advanceCursor_ok hcursor
    have h₁ : s₁.OccurrencesUnique := by
      unfold OccurrencesUnique
      rw [hsame]
      exact h
    have h₂ : s₂.OccurrencesUnique :=
      materializeRuns_induction (fun _ hs hrun => hs.materializeRun hrun) h₁ hruns
    unfold OccurrencesUnique
    rw [(recordSummaries_keeps s₂ job summaries now).2.1]
    exact h₂
  · push Not at hop
    exact h.of_continues fun r' hr' ht => apply_continues howned hop happly hr' ht

end OccurrencesUnique

/-- **In every reachable state an occurrence of a revision is one run.** -/
theorem Reachable.occurrencesUnique {allowed : Store → Op → Prop}
    (h : Reachable allowed s) : s.OccurrencesUnique := by
  induction h with
  | refl => exact fun r₁ hr₁ => by cases hr₁
  | tail hs hlast ih =>
    obtain ⟨op, -, happly⟩ := hlast
    exact ih.apply (Reachable.owned hs) happly

end Store

end Locron
