import Locron.Daemon.World

set_option autoImplicit false

/-! # Cursors under concurrent edits

An update that keeps the schedule writes back the cursor that was read. If a pass has moved the
cursor in the meantime, the write moves it back, and the occurrences in between are materialized
again, as runs of the new revision. In runs in which every edit finds the cursor where it read it,
cursors only move forward and no nominal time is materialized twice.
-/

namespace Locron

namespace Store

/-- Where the schedule of a job was reconciled to. -/
def cursorOf (s : Store) (job : Uuid) : Option Int := (s.position job).map (fun x => x.2.cursor)

/-- No cursor is lost or moved back. -/
def CursorsAdvance (s s' : Store) : Prop :=
  ∀ job c, s.cursorOf job = some c → ∃ c', s'.cursorOf job = some c' ∧ c ≤ c'

theorem CursorsAdvance.refl (s : Store) : CursorsAdvance s s := fun _ c h => ⟨c, h, le_refl c⟩

theorem CursorsAdvance.trans {s s' s'' : Store} (h : CursorsAdvance s s')
    (h' : CursorsAdvance s' s'') : CursorsAdvance s s'' := by
  intro job c hc
  obtain ⟨c', hc', hle⟩ := h job c hc
  obtain ⟨c'', hc'', hle'⟩ := h' job c' hc'
  exact ⟨c'', hc'', hle.trans hle'⟩

theorem cursorOf_eq_some {s : Store} {job : Uuid} {c : Int} :
    s.cursorOf job = some c ↔ ∃ j row, s.position job = some (j, row) ∧ row.cursor = c := by
  unfold cursorOf
  rw [Option.map_eq_some_iff]
  exact ⟨fun ⟨x, hx, hc⟩ => ⟨x.1, x.2, hx, hc⟩, fun ⟨j, row, hx, hc⟩ => ⟨(j, row), hx, hc⟩⟩

theorem KeepsPositions.cursorsAdvance {s s' : Store} (h : KeepsPositions s s') :
    CursorsAdvance s s' := by
  intro job c hc
  obtain ⟨j, row, hposition, rfl⟩ := cursorOf_eq_some.mp hc
  obtain ⟨j', row', hposition', hkeeps⟩ := h job j row hposition
  exact ⟨row.cursor, cursorOf_eq_some.mpr ⟨j', row', hposition', hkeeps.cursor⟩, le_refl _⟩

/-- A revision that does not carry an older cursor than the job had moves no cursor back. -/
theorem CursorsAdvance.revised {s t t' : Store} {job : UpdateJob} {now : Int}
    (h : CursorsAdvance s t) (hrevised : Revised job now t t')
    (hcursor : ∀ c, s.cursorOf job.id = some c → c ≤ job.cursor) : CursorsAdvance s t' := by
  intro id c hc
  obtain ⟨hother, hown⟩ := position_revised hrevised id
  by_cases hid : id = job.id
  · obtain ⟨j, -, -, hposition⟩ := hown hid
    rw [hid] at hc
    exact ⟨job.cursor, cursorOf_eq_some.mpr ⟨_, _, hposition, rfl⟩, hcursor c hc⟩
  unfold cursorOf
  rw [hother hid]
  exact h id c hc

/-- An import moves no cursor back if none of its updates carries an older one than its job has. -/
theorem cursorsAdvance_of_applyImport {s s' : Store} {batch : ImportBatch}
    (hcursor : ∀ resolution job, .update resolution job ∈ batch.jobs →
      ∀ c, s.cursorOf job.id = some c → c ≤ job.cursor)
    (h : s.applyImport batch = .ok s') : CursorsAdvance s s' := by
  refine applyImport_position_induction (motive := CursorsAdvance s) ?_ ?_ ?_ (.refl s) h
  · intro job t t' ht hcreated
    exact ht.trans (keepsPositions_of_created hcreated).cursorsAdvance
  · intro resolution job t t' hmem _ ht hrevised
    exact ht.revised hrevised (hcursor resolution job hmem)
  · intro t t' ht hsame
    exact ht.trans (keepsPositions_of_keepsDefinitions hsame.toKeepsDefinitions).cursorsAdvance

theorem cursorsAdvance_of_materialize {s s' : Store} {job : Uuid} {cursor : CursorUpdate}
    {runs : List NewScheduledRun} {summaries : List ReconciliationSummary} {now : Int}
    {result : MaterializedRun} (hlt : cursor.expectedCursor < cursor.newCursor)
    (h : s.materializeWithSummaries job cursor runs summaries now = .ok (result, s')) :
    CursorsAdvance s s' ∧ s.cursorOf job = some cursor.expectedCursor ∧
      s'.cursorOf job = some cursor.newCursor := by
  obtain ⟨j, c, j', hposition, -, -, hexpected, hposition', -⟩ :=
    (position_materialized h job).2 rfl
  have hbefore : s.cursorOf job = some cursor.expectedCursor :=
    cursorOf_eq_some.mpr ⟨j, c, hposition, hexpected⟩
  have hafter : s'.cursorOf job = some cursor.newCursor :=
    cursorOf_eq_some.mpr ⟨j', c.advance cursor now, hposition', rfl⟩
  refine ⟨?_, hbefore, hafter⟩
  intro id x hx
  by_cases hid : id = job
  · subst hid
    rw [hbefore] at hx
    cases hx
    exact ⟨cursor.newCursor, hafter, hlt.le⟩
  · refine ⟨x, ?_, le_refl x⟩
    unfold cursorOf
    rw [(position_materialized h id).1 hid]
    exact hx

end Store

namespace World

/-- The update keeps the schedule and the flag as they were read. -/
def Unchanging (current : JobRecord) (job : UpdateJob) : Prop :=
  job.enabled = current.enabled ∧
    job.definition.definition.map (fun d => d.schedule)
      = current.definition.definition.map (fun d => d.schedule)

instance (current : JobRecord) (job : UpdateJob) : Decidable (Unchanging current job) :=
  inferInstanceAs (Decidable (_ ∧ _))

/-- All edits keep the schedule and the flag. -/
def unchangingEdits (w : World) (a : Action) : Prop :=
  ∀ x ∈ w.plannedUpdates a, Unchanging x.1 x.2

/-- All edits keep the schedule and the flag, and find the cursor where they read it. -/
def undisturbedEdits (w : World) (a : Action) : Prop :=
  ∀ x ∈ w.plannedUpdates a, Unchanging x.1 x.2 ∧ w.store.cursorOf x.2.id = some x.1.cursor

/-- No edit carries an older cursor than the job has. -/
def forwardEdits (w : World) (a : Action) : Prop :=
  ∀ x ∈ w.plannedUpdates a, ∀ c, w.store.cursorOf x.2.id = some c → c ≤ x.2.cursor

theorem planned_of_mem {w : World} {a : Action} {current : JobRecord} {job : UpdateJob}
    (h : (current, job) ∈ w.plannedUpdates a) :
    ∃ d edit, current.definition.definition = some d ∧ job = current.planned d edit := by
  cases a with
  | update index edit =>
    simp only [plannedUpdates] at h
    split at h
    · cases h
    next record hrecord =>
    obtain ⟨job', hjob', heq⟩ := List.mem_map.mp h
    cases heq
    unfold JobRecord.planUpdate at hjob'
    split at hjob'
    · cases hjob'
    next d hd =>
    split at hjob'
    · cases hjob'
    · rw [Option.mem_toList, Option.some.injEq] at hjob'
      exact ⟨d, edit, hd, hjob'.symm⟩
  | importJobs sources settings now =>
    obtain ⟨source, -, h⟩ := List.mem_flatMap.mp h
    split at h
    · next resolution index edit resolution' job' hplan =>
      obtain ⟨current', hcurrent, heq⟩ := List.mem_map.mp h
      cases heq
      rw [Option.mem_toList] at hcurrent
      simp only [ImportSource.plan, hcurrent] at hplan
      split at hplan
      · cases hplan
      next d hd =>
      rw [Option.some.injEq] at hplan
      split at hplan
      · cases hplan
      · cases hplan
        exact ⟨d, edit, hd, rfl⟩
    · cases h
  | _ => cases h

/-- An edit that keeps the schedule carries the cursor that was read. -/
theorem cursor_of_unchanging {w : World} {a : Action} {current : JobRecord} {job : UpdateJob}
    (h : (current, job) ∈ w.plannedUpdates a) (hunchanging : Unchanging current job) :
    job.id = current.id ∧ job.cursor = current.cursor := by
  obtain ⟨d, edit, hd, rfl⟩ := planned_of_mem h
  have hschedule := hunchanging.2
  rw [hd] at hschedule
  have hsame : d.schedule = edit.definition.schedule := (Option.some.inj hschedule).symm
  refine ⟨rfl, ?_⟩
  simp [JobRecord.planned, hsame]

/-! ## The invariant -/

/-- Every materialized time is behind the cursor of its job, and is one run. -/
structure MaterializedOnce (w : World) : Prop where
  behind : ∀ x ∈ w.history.materialized,
    ∃ t c, x.2.1 = some t ∧ w.store.cursorOf x.1 = some c ∧ t ≤ c
  once : ∀ x ∈ w.history.materialized, ∀ y ∈ w.history.materialized,
    x.1 = y.1 → x.2.1 = y.2.1 → x.2.2 = y.2.2

section Step

variable {host : Host} {w w' : World} {a : Action}

theorem forwardEdits_of_undisturbed (h : w.undisturbedEdits a) : w.forwardEdits a := by
  intro x hx c hc
  obtain ⟨hunchanging, hcursor⟩ := h x hx
  rw [hcursor, Option.some.injEq] at hc
  rw [(cursor_of_unchanging hx hunchanging).2, hc]

/-- **Cursors only move forward** in an action whose edits carry no older ones. -/
theorem cursorsAdvance_of_act (hforward : w.forwardEdits a) (h : w.act host a = some w') :
    Store.CursorsAdvance w.store w'.store := by
  cases commits_of_act h with
  | nothing h =>
    rw [h]
    exact .refl _
  | other op ha hop h => exact (Store.apply_keepsPositions hop h).cursorsAdvance
  | update current job hplan h =>
    exact (Store.CursorsAdvance.refl _).revised (Store.updateJob_ok h) (hforward _ hplan)
  | importJobs batch hplan h =>
    refine Store.cursorsAdvance_of_applyImport (fun resolution job hmem => ?_) h
    obtain ⟨current, hcurrent⟩ := hplan resolution job hmem
    exact hforward _ hcurrent
  | reconcile p job ids ha h =>
    obtain ⟨d, r, result, ids', -, -, hcommit⟩ := h.commit
    exact (Store.cursorsAdvance_of_materialize h.behind hcommit).1

theorem MaterializedOnce.step (hreachable : Store.Reachable Store.anyOp w.store)
    (hw : w.MaterializedOnce) (hallowed : w.undisturbedEdits a) (h : w.act host a = some w') :
    w'.MaterializedOnce := by
  have hadvance := cursorsAdvance_of_act (forwardEdits_of_undisturbed hallowed) h
  have hcommits := commits_of_act h
  have hreachable' := hcommits.reachable hreachable
  obtain ⟨w₁, -, rfl⟩ := act_eq_some h
  have hold : ∀ x ∈ w.history.materialized,
      ∃ t c, x.2.1 = some t ∧ w₁.store.cursorOf x.1 = some c ∧ t ≤ c := by
    intro x hx
    obtain ⟨t, c, ht, hc, hle⟩ := hw.behind x hx
    obtain ⟨c', hc', hle'⟩ := hadvance x.1 c hc
    exact ⟨t, c', ht, hc', hle.trans hle'⟩
  rcases hcommits.insertedRuns_cases hreachable with hnil | ⟨p, job, -, -, hmaterializes⟩
  · have hmaterialized : (w.record a w₁).materialized = w.history.materialized := by
      show w.history.materialized ++ insertedRuns w.store w₁.store = _
      rw [show insertedRuns w.store w₁.store = [] from hnil, List.append_nil]
    exact ⟨by rw [hmaterialized]; exact hold, by rw [hmaterialized]; exact hw.once⟩
  · obtain ⟨d, r, result, ids, -, -, hcommit⟩ := hmaterializes.commit
    obtain ⟨-, hbefore, hafter⟩ :=
      Store.cursorsAdvance_of_materialize hmaterializes.behind hcommit
    have hnew : ∀ x ∈ insertedRuns w.store w₁.store, _ := fun x hx =>
      hmaterializes.mem_insertedRuns hx
    -- an old time is behind the old cursor, a new one is not
    have hapart : ∀ x ∈ w.history.materialized, ∀ y ∈ insertedRuns w.store w₁.store,
        x.1 = y.1 → x.2.1 ≠ y.2.1 := by
      intro x hx y hy hjob hnominal
      obtain ⟨hyjob, ⟨t', ht', hlow, -⟩, -⟩ := hnew y hy
      obtain ⟨t, c, ht, hc, hle⟩ := hw.behind x hx
      rw [hjob, hyjob, hbefore] at hc
      rw [ht, ht'] at hnominal
      cases hnominal
      cases hc
      exact absurd hlow (not_lt.mpr hle)
    refine ⟨?_, ?_⟩
    · intro x hx
      rcases List.mem_append.mp hx with hx | hx
      · exact hold x hx
      obtain ⟨hjob, ⟨t, ht, -, hhigh⟩, -⟩ := hnew x hx
      refine ⟨t, p.sample.wall, ht, ?_, hhigh⟩
      rw [hjob]
      exact hafter
    · intro x hx y hy hjob hnominal
      rcases List.mem_append.mp hx with hx | hx
      · rcases List.mem_append.mp hy with hy | hy
        · exact hw.once x hx y hy hjob hnominal
        · exact absurd hnominal (hapart x hx y hy hjob)
      rcases List.mem_append.mp hy with hy | hy
      · exact absurd hnominal.symm (hapart y hy x hx hjob.symm)
      -- two runs of one transaction are of one revision
      obtain ⟨-, -, row, hrow, ht, hrowJob, hrevision, hrowNominal, hid⟩ := hnew x hx
      obtain ⟨-, -, row', hrow', ht', hrowJob', hrevision', hrowNominal', hid'⟩ := hnew y hy
      rw [← hid, ← hid']
      exact hreachable'.occurrencesUnique row hrow row' hrow' ht ht'
        (hrowJob.trans hrowJob'.symm) (hrevision.trans hrevision'.symm)
        (by rw [hrowNominal, hrowNominal', hnominal])

end Step

/-- **Exactly-once materialization**: in every run in which edits keep the schedule and find the
cursor where they read it, no nominal time of a job becomes two runs, and no action moves a cursor
back. -/
theorem undisturbed_edits_materialize_once {host : Host} {w : World}
    (h : Reaches host undisturbedEdits w) :
    (∀ job nominal run₁ run₂, (job, nominal, run₁) ∈ w.history.materialized →
      (job, nominal, run₂) ∈ w.history.materialized → run₁ = run₂) ∧
    ∀ a w', w.undisturbedEdits a → w.act host a = some w' →
      ∀ job c, w.store.cursorOf job = some c → ∃ c', w'.store.cursorOf job = some c' ∧ c ≤ c' := by
  have hinvariant : Store.Reachable Store.anyOp w.store ∧ w.MaterializedOnce := by
    refine Runs.Reaches.invariant (motive := fun w => Store.Reachable Store.anyOp w.store ∧
      w.MaterializedOnce) ?_ ?_ h
    · rintro w ⟨clock, rfl⟩
      exact ⟨.refl, fun x hx => (by cases hx), fun x hx => (by cases hx)⟩
    · intro w a w' hw hallowed hact
      exact ⟨(commits_of_act hact).reachable hw.1, hw.2.step hw.1 hallowed hact⟩
  refine ⟨?_, ?_⟩
  · intro job nominal run₁ run₂ h₁ h₂
    exact hinvariant.2.once _ h₁ _ h₂ rfl rfl
  · intro a w' hallowed hact
    exact cursorsAdvance_of_act (forwardEdits_of_undisturbed hallowed) hact

/-! ## An edit between a read and a write -/

def renamed : Edit := ⟨"renamed", none, "[]", true, hourly, 1⟩

/-- A job is created, the daemon starts, and an editor reads the job. -/
def readHourly : List Action :=
  .other (.createJob ⟨1, "job", none, "[]", true, .job hourly, 0, 0⟩) :: passAt 1 2 ++ [.read 1]

/-- The check of a run on which all edits keep the schedule. -/
def checkUnchanging (w : World) (a : Action) : Bool :=
  (w.plannedUpdates a).all (fun x => Unchanging x.1 x.2)

theorem unchangingEdits_of_check (w : World) (a : Action) (h : checkUnchanging w a = true) :
    w.unchangingEdits a := by
  intro x hx
  simpa using List.all_eq_true.mp h x hx

/-- **A pass between the read and the write of a rename is undone**: the cursor moves back, and the
next pass materializes the same hour as a second run. -/
theorem rename_materializes_twice :
    (∃ w w', Reaches utcHost unchangingEdits w ∧ w.unchangingEdits (.update 0 renamed) ∧
      w.act utcHost (.update 0 renamed) = some w' ∧
      w.store.cursorOf 1 = some 3600000000 ∧ w'.store.cursorOf 1 = some 1) ∧
    ∃ w, Reaches utcHost unchangingEdits w ∧
      (1, some 3600000000, 3) ∈ w.history.materialized ∧
      (1, some 3600000000, 4) ∈ w.history.materialized := by
  constructor
  · obtain ⟨w, hw, hunchanging, w', hw', hcursors⟩ := exists_reaches utcHost unchangingEdits
      checkUnchanging unchangingEdits_of_check (readHourly ++ passAt 3600000000 3) ⟨0, 0⟩
      (fun w => checkUnchanging w (.update 0 renamed) = true ∧
        ∃ w', w.act utcHost (.update 0 renamed) = some w' ∧
          w.store.cursorOf 1 = some 3600000000 ∧ w'.store.cursorOf 1 = some 1) (by decide +kernel)
    exact ⟨w, w', hw, unchangingEdits_of_check _ _ hunchanging, hw', hcursors⟩
  · exact exists_reaches utcHost unchangingEdits checkUnchanging unchangingEdits_of_check
      (readHourly ++ passAt 3600000000 3 ++ [.update 0 renamed] ++ passAt 3600000001 4) ⟨0, 0⟩ _
      (by decide +kernel)

/-- The check of a run on which no edit is disturbed. -/
def checkUndisturbed (w : World) (a : Action) : Bool :=
  (w.plannedUpdates a).all (fun x => decide (Unchanging x.1 x.2)
    && w.store.cursorOf x.2.id = some x.1.cursor)

/-- A rename before the pass: the hour is one run. -/
theorem undisturbed_edits_materialize_once_renamed :
    ∃ w, Reaches utcHost undisturbedEdits w ∧ (1, some 3600000000, 3) ∈ w.history.materialized ∧
      ∀ run, (1, some 3600000000, run) ∈ w.history.materialized → run = 3 := by
  obtain ⟨w, hw, hthree⟩ := exists_reaches utcHost undisturbedEdits checkUndisturbed
    (fun w a h x hx => by simpa using List.all_eq_true.mp h x hx)
    (readHourly ++ [.update 0 renamed] ++ passAt 3600000000 3) ⟨0, 0⟩
    (fun w => (1, some 3600000000, 3) ∈ w.history.materialized) (by decide +kernel)
  refine ⟨w, hw, hthree, fun run hrun => ?_⟩
  exact (undisturbed_edits_materialize_once hw).1 1 _ run 3 hrun hthree

end World

end Locron
