import Locron.Daemon.World

set_option autoImplicit false

/-! # Jobs of one pass

A pass ends at its first error, and what it leaves in memory is written at its end only. So after an
error on one job the jobs behind it are not reconciled, and as long as no pass is complete every
pass counts as the first one, whose ranges are missed. Where no job fails in the first pass, and
later only the last job of a pass, what falls due after the first pass has begun is normal work.
-/

namespace Locron

/-- The wall clock keeps its distance from the monotonic clock, up to a second. -/
def ClockSample.Steady (offset : Int) (c : ClockSample) : Prop :=
  offset ≤ c.wall - c.monotonic ∧ c.wall - c.monotonic ≤ offset + 1000000

instance (offset : Int) (c : ClockSample) : Decidable (c.Steady offset) :=
  inferInstanceAs (Decidable (_ ∧ _))

theorem Adapter.clockDiscontinuity_eq_false {offset : Int} {a : Adapter} {now : ClockSample}
    (hnow : now.Steady offset)
    (hlast : ∀ c, a.lastClockSample = some c → c.Steady offset ∧ c.monotonic ≤ now.monotonic) :
    a.clockDiscontinuity now = false := by
  unfold clockDiscontinuity
  split
  · rfl
  next previous hprevious =>
  obtain ⟨⟨h₁, h₂⟩, hle⟩ := hlast previous hprevious
  obtain ⟨h₃, h₄⟩ := hnow
  simp only [decide_eq_false_iff_not, not_lt]
  omega

/-! ## Jobs that can be handled -/

namespace Store

/-- The live job still has the revision with which it was listed, and its cursor stands where it was
listed. -/
def stands (s : Store) (job : JobRecord) : Bool :=
  (s.liveJob job.id).map (fun j => j.currentRevision) = some job.currentRevision
  && (s.cursors.find (job.id, job.currentRevision)).map (fun c => c.cursor) = some job.cursor
  && (s.revisions.find (job.id, job.currentRevision)).isSome

theorem exists_advanceCursor {s : Store} {job : JobRecord} (h : s.stands job = true)
    {cursor : CursorUpdate} (hrevision : cursor.expectedRevision = job.currentRevision)
    (hcursor : cursor.expectedCursor = job.cursor) (now : Int) :
    ∃ s', s.advanceCursor job.id cursor now = .ok s' := by
  simp only [stands, Bool.and_eq_true, decide_eq_true_eq] at h
  obtain ⟨⟨hlive, hstands⟩, -⟩ := h
  obtain ⟨c, hc, hat⟩ := Option.map_eq_some_iff.mp hstands
  have hcount : s.cursors.count (fun c => c.jobId = job.id && c.revision = cursor.expectedRevision
      && (s.liveJob job.id).map (fun j => j.currentRevision) = some c.revision
      && c.cursor = cursor.expectedCursor) = 1 := by
    rw [← s.cursors.count_key hc (p := fun c =>
      (s.liveJob job.id).map (fun j => j.currentRevision) = some c.revision
        && c.cursor = cursor.expectedCursor)]
    · refine congrArg s.cursors.count (funext fun x => ?_)
      simp [CursorRow.key, hrevision, Bool.and_assoc]
    · obtain ⟨-, hkey⟩ := Table.find_eq_some.mp hc
      have hrow : c.revision = job.currentRevision := congrArg Prod.snd hkey
      simp [hlive, hrow, hat, hcursor]
  unfold advanceCursor
  rw [if_neg (not_not.mpr hcount)]
  split
  · exact ⟨_, rfl⟩
  · exact ⟨_, rfl⟩

theorem exists_insertRunOrIgnore {s : Store} {row : RunRow} (h : s.runReferences row = true) :
    ∃ x, s.insertRunOrIgnore row = .ok x := by
  unfold insertRunOrIgnore
  split
  · exact ⟨_, rfl⟩
  next hconflict =>
  obtain ⟨s', hs'⟩ := exists_insertRun (Bool.eq_false_of_not_eq_true hconflict) h
  rw [hs']
  exact ⟨_, rfl⟩

/-- Runs of a known revision are inserted or dropped as duplicates. -/
theorem exists_materializeRuns (now : Int) {job : Uuid} {revision : Nat}
    {batch : List (NewScheduledRun × SnapshotAdmissionPolicy)}
    (hbatch : ∀ x ∈ batch, x.1.jobId = job ∧ x.1.revision = revision) {s : Store}
    (hjob : (s.jobs.find job).isSome = true)
    (hknown : (s.revisions.find (job, revision)).isSome = true)
    (result : MaterializedRun) : ∃ x, s.materializeRuns now batch result = .ok x := by
  induction batch generalizing s result with
  | nil => exact ⟨_, rfl⟩
  | cons x batch ih =>
    obtain ⟨run, policy⟩ := x
    obtain ⟨rfl, rfl⟩ : run.jobId = job ∧ run.revision = revision := hbatch _ List.mem_cons_self
    obtain ⟨⟨inserted, s₁⟩, hrun⟩ : ∃ y, s.materializeRun now run policy = .ok y := by
      have hroom := (keepsDefinitions_room s run.jobId now run.id
        (s.decision run.jobId (run.trigger != .catchUp) policy).candidate).1
      exact exists_insertRunOrIgnore (s := s.room run.jobId now run.id
        (s.decision run.jobId (run.trigger != .catchUp) policy).candidate) (by
          simp only [runReferences, hroom.jobs, hroom.revisions, newRunRow, hjob, hknown,
            Bool.and_self])
    have hkeeps := (materializeRun_ok hrun).1
    obtain ⟨y, hy⟩ := ih (fun y hy => hbatch y (List.mem_cons_of_mem _ hy)) (s := s₁)
      (by rwa [hkeeps.jobs]) (by rwa [hkeeps.revisions])
      (if inserted then { result with inserted := result.inserted + 1 }
        else { result with duplicates := result.duplicates + 1 })
    refine ⟨y, ?_⟩
    unfold materializeRuns
    rw [hrun]
    cases inserted <;> exact hy

end Store

namespace Pass

/-- A listed job can be handled: its definition is one, and unless its cursor is not behind, it
stands in the store as listed and its elapsed range is reconciled, with sound summaries. -/
def ready (host : Host) (p : Pass) (job : JobRecord) (s : Store) : Bool :=
  match job.definition.definition with
  | none => false
  | some d => p.sample.wall ≤ job.cursor || (s.stands job &&
    match p.reconciliation host job d with
    | .error _ => false
    | .ok r => r.omitted.all (fun x => 0 < x.count && x.first ≤ x.last))

theorem exists_preparePolicies {job : JobRecord} {d : JobDefinition} (hd : job.definition = .job d)
    {runs : List NewScheduledRun} (hruns : ∀ run ∈ runs, ∃ o now id, run =
      SelectedOccurrence.run job now id o) :
    ∃ prepared, Store.preparePolicies job.id job.currentRevision runs = .ok prepared := by
  induction runs with
  | nil => exact ⟨[], rfl⟩
  | cons run runs ih =>
    obtain ⟨o, now, id, rfl⟩ := hruns _ List.mem_cons_self
    obtain ⟨prepared, hprepared⟩ := ih fun run hrun => hruns run (List.mem_cons_of_mem _ hrun)
    unfold Store.preparePolicies
    simp [SelectedOccurrence.run, hd, snapshotAdmissionPolicy, hprepared]

/-- **A job that can be handled is handled without an error.** -/
theorem exists_reconcileJob {host : Host} {p : Pass} {job : JobRecord} {s : Store}
    (h : p.ready host job s = true) (ids : Nat → Uuid) :
    ∃ x, p.reconcileJob host job ids s = .ok x := by
  unfold ready at h
  unfold reconcileJob
  obtain ⟨d, hd⟩ : ∃ d, job.definition.definition = some d := by
    cases hd : job.definition.definition with
    | none =>
      rw [hd] at h
      cases h
    | some d => exact ⟨d, rfl⟩
  rw [hd] at h ⊢
  dsimp only at h ⊢
  by_cases hle : p.sample.wall ≤ job.cursor
  · rw [if_pos hle]
    exact ⟨_, rfl⟩
  rw [if_neg hle]
  simp only [hle, decide_false, Bool.false_or, Bool.and_eq_true] at h
  obtain ⟨hstands, h⟩ := h
  obtain ⟨r, hr⟩ : ∃ r, p.reconciliation host job d = .ok r := by
    cases hr : p.reconciliation host job d with
    | error e =>
      rw [hr] at h
      cases h
    | ok r => exact ⟨r, rfl⟩
  rw [hr] at h ⊢
  dsimp only at h ⊢
  -- the snapshots of the runs are the definition itself, so their policies can be read
  have hdefinition : job.definition = .job d := by
    cases hsnapshot : job.definition <;> rw [hsnapshot] at hd <;> cases hd
    rfl
  have hruns : ∀ run ∈ scheduledRuns job p.sample.wall ids r.selected, ∃ o now id,
      run = SelectedOccurrence.run job now id o := fun run hrun => by
    obtain ⟨o, -, id, rfl⟩ := mem_scheduledRuns hrun
    exact ⟨o, _, id, rfl⟩
  obtain ⟨prepared, hprepared⟩ := exists_preparePolicies hdefinition hruns
  have hvalid : ¬ (r.omitted.map OmittedRange.summary).any
      (fun x => x.count = 0 || x.lastNominal < x.firstNominal) = true := by
    rw [List.any_map, List.any_eq_true]
    rintro ⟨x, hx, hbad⟩
    have hgood := List.all_eq_true.mp h x hx
    simp only [Bool.and_eq_true, decide_eq_true_eq] at hgood
    rcases Bool.or_eq_true_iff.mp hbad with hbad | hbad
    · exact absurd (of_decide_eq_true hbad) hgood.1.ne'
    · exact absurd (of_decide_eq_true hbad) hgood.2.not_gt
  -- the cursor stands where it was listed, and moving it leaves the rows the inserts refer to
  have hadvance : ∃ s₁, s.advanceCursor job.id (p.cursorUpdate job d) p.sample.wall = .ok s₁ :=
    s.exists_advanceCursor hstands rfl rfl p.sample.wall
  obtain ⟨s₁, hs₁⟩ := hadvance
  obtain ⟨⟨j, c, hj, -⟩, -, -, hrevisions, hjobs, -⟩ := Store.advanceCursor_ok hs₁
  have hjob : (s₁.jobs.find job.id).isSome = true := by
    rw [hjobs, (Option.filter_eq_some_iff.mp hj).1]
    rfl
  have hknown : (s₁.revisions.find (job.id, job.currentRevision)).isSome = true := by
    simp only [Store.stands, Bool.and_eq_true] at hstands
    rw [hrevisions]
    exact hstands.2
  have hprepared' := (Store.of_preparePolicies hprepared).2
  obtain ⟨⟨result, s₂⟩, hs₂⟩ := Store.exists_materializeRuns p.sample.wall
    (fun x hx => ⟨(hprepared' x hx).1, (hprepared' x hx).2.1⟩) hjob hknown ⟨0, 0⟩
  simp only [Store.materializeWithSummaries, cursorUpdate, hprepared]
  rw [if_neg hvalid]
  simp only [cursorUpdate] at hs₁
  simp only [hs₁, hs₂]
  exact ⟨_, rfl⟩

end Pass

namespace World

/-- No clock discontinuity: the clocks move forward, and are steady where a pass samples them. -/
def steadyClocks (offset : Int) (w : World) : Action → Prop
  | .advance clock => w.clock.monotonic ≤ clock.monotonic
  | .beginPass => w.clock.Steady offset
  | _ => True

/-- What a job may do to the others: in a pass that is a start every job can be handled, in a later
pass every job but the last. Other errors end a later pass only behind its jobs. -/
def containsFailures (host : Host) (w : World) : Action → Prop
  | .reconcileJob _ => ∀ p job rest, w.pass = some p → p.jobs = some (job :: rest) →
      p.startup = true ∨ rest ≠ [] → p.ready host job w.store = true
  | .failPass => ∀ p, w.pass = some p → p.startup = false ∧ p.jobs = some []
  | _ => True

/-- A job that fails was the last of a later pass. -/
theorem containsFailures.of_error {host : Host} {w : World} {ids : Nat → Uuid} {p : Pass}
    {job : JobRecord} {rest : List JobRecord} {e : PassError}
    (h : w.containsFailures host (.reconcileJob ids)) (hpass : w.pass = some p)
    (hjobs : p.jobs = some (job :: rest)) (he : p.reconcileJob host job ids w.store = .error e) :
    p.startup = false ∧ rest = [] := by
  by_contra hcon
  have hready := h p job rest hpass hjobs (by
    by_contra hneither
    push Not at hneither
    exact hcon ⟨Bool.eq_false_of_not_eq_true hneither.1, hneither.2⟩)
  obtain ⟨x, hx⟩ := Pass.exists_reconcileJob hready ids
  rw [he] at hx
  cases hx

/-! ## Only the first pass is a start -/

/-- What the daemon remembers, as long as every start is completed. -/
structure Remembers (offset : Int) (w : World) : Prop where
  idle : w.history.firstPass = none → w.adapter = .new ∧ w.pass = none
  begun : w.history.firstPass ≠ none → w.pass = none → w.adapter.firstReconcile = false
  sampled : ∀ c, w.adapter.lastClockSample = some c →
    c.Steady offset ∧ c.monotonic ≤ w.clock.monotonic
  current : ∀ p, w.pass = some p → p.sample.Steady offset ∧
    p.sample.monotonic ≤ w.clock.monotonic ∧ p.clockDiscontinuity = false ∧
    p.startup = w.adapter.firstReconcile ∧
    (p.startup = true → w.history.firstPass = some p.sample.wall)

/-- Nothing but the database and the list of jobs of the pass has changed. -/
theorem Remembers.of_same {offset : Int} {w w' : World} (h : w.Remembers offset)
    (hfirst : w'.history.firstPass = w.history.firstPass) (hadapter : w'.adapter = w.adapter)
    (hclock : w.clock.monotonic ≤ w'.clock.monotonic)
    (hpass : (w'.pass = none ↔ w.pass = none) ∧ ∀ p', w'.pass = some p' → ∃ p, w.pass = some p ∧
      p'.sample = p.sample ∧ p'.startup = p.startup ∧
      p'.clockDiscontinuity = p.clockDiscontinuity) : w'.Remembers offset := by
  refine ⟨?_, ?_, ?_, ?_⟩
  · rw [hfirst, hadapter, hpass.1]
    exact h.idle
  · rw [hfirst, hadapter, hpass.1]
    exact h.begun
  · rw [hadapter]
    intro c hc
    obtain ⟨hsteady, hle⟩ := h.sampled c hc
    exact ⟨hsteady, hle.trans hclock⟩
  · intro p' hp'
    obtain ⟨p, hp, hsample, hstartup, hdiscontinuity⟩ := hpass.2 p' hp'
    obtain ⟨hsteady, hle, hfalse, hstart⟩ := h.current p hp
    rw [hsample, hstartup, hdiscontinuity, hfirst, hadapter]
    exact ⟨hsteady, hle.trans hclock, hfalse, hstart⟩

/-- A later pass may end early. -/
theorem Remembers.drop {offset : Int} {w w' : World} (h : w.Remembers offset)
    (hfirst : w'.history.firstPass = w.history.firstPass) (hadapter : w'.adapter = w.adapter)
    (hclock : w'.clock = w.clock) (hpass : w'.pass = none) {p : Pass} (hp : w.pass = some p)
    (hlater : p.startup = false) : w'.Remembers offset := by
  refine ⟨?_, fun _ _ => ?_, ?_, ?_⟩
  · rw [hfirst, hadapter]
    exact fun hnone => ⟨(h.idle hnone).1, hpass⟩
  · rw [hadapter, ← (h.current p hp).2.2.2.1]
    exact hlater
  · rw [hadapter, hclock]
    exact h.sampled
  · intro p' hp'
    rw [hpass] at hp'
    cases hp'

theorem Remembers.step {host : Host} {offset : Int} {w w' : World} {a : Action}
    (h : w.Remembers offset) (hsteady : w.steadyClocks offset a) (hno : w.containsFailures host a)
    (hact : w.act host a = some w') : w'.Remembers offset := by
  have hkeep : ∀ {w₁ : World}, w₁.pass = w.pass → (w₁.pass = none ↔ w.pass = none) ∧
      ∀ p', w₁.pass = some p' → ∃ p, w.pass = some p ∧ p'.sample = p.sample ∧
        p'.startup = p.startup ∧ p'.clockDiscontinuity = p.clockDiscontinuity := by
    intro w₁ hpass
    rw [hpass]
    exact ⟨Iff.rfl, fun p' hp' => ⟨p', hp', rfl, rfl, rfl⟩⟩
  obtain ⟨w₁, hperform, rfl⟩ := act_eq_some hact
  have heditor : ∀ {b : Action}, b.ofEditor = true → w.perform host b = some w₁ →
      Remembers offset { w₁ with history := w.record b w₁ } := by
    intro b hb hperform
    obtain ⟨hclock, hpass, hadapter⟩ := editor_frame hb hperform
    refine h.of_same ?_ hadapter (le_of_eq (congrArg ClockSample.monotonic hclock.symm))
      (hkeep hpass)
    cases b with
    | restart | beginPass => cases hb
    | _ => rfl
  cases a with
  | advance clock =>
    cases hperform
    exact h.of_same rfl rfl hsteady (hkeep rfl)
  | read | update | importJobs | other => exact heditor rfl hperform
  | restart =>
    cases hperform
    refine ⟨fun _ => ⟨rfl, rfl⟩, fun hne => absurd rfl hne, ?_, ?_⟩
    · intro c hc
      cases hc
    · intro p hp
      cases hp
  | beginPass =>
    obtain ⟨hnone, rfl⟩ := beginPass_eq_some hperform
    refine ⟨?_, ?_, h.sampled, ?_⟩
    · intro hfirst
      cases hw : w.history.firstPass <;> simp [record, hw] at hfirst
    · intro _ hpass
      cases hpass
    · intro p hp
      cases hp
      refine ⟨hsteady, le_refl _, ?_, rfl, ?_⟩
      · exact Adapter.clockDiscontinuity_eq_false hsteady h.sampled
      -- a start: no pass has begun before, since it would have been completed
      intro hstartup
      have hfirst : w.history.firstPass = none := by
        by_contra hne
        have hfalse := h.begun hne hnone
        rw [show w.adapter.firstReconcile = true from hstartup] at hfalse
        cases hfalse
      simp [record, hfirst, Adapter.beginPass]
  | listJobs =>
    obtain ⟨p, hp, -, rfl⟩ := listJobs_eq_some hperform
    refine h.of_same rfl rfl (le_refl _) ⟨by simp [hp], ?_⟩
    intro p' hp'
    cases hp'
    exact ⟨p, hp, rfl, rfl, rfl⟩
  | reconcileJob ids =>
    obtain ⟨p, job, rest, hp, hjobs, ⟨e, he, rfl⟩ | ⟨inserted, s, -, rfl⟩⟩ :=
      reconcileJob_eq_some hperform
    · exact h.drop rfl rfl rfl rfl hp (hno.of_error hp hjobs he).1
    · refine h.of_same rfl rfl (le_refl _) ⟨by simp [hp], ?_⟩
      intro p' hp'
      cases hp'
      exact ⟨p, hp, rfl, rfl, rfl⟩
  | failPass =>
    obtain ⟨p, hp⟩ : ∃ p, w.pass = some p := by
      cases hp : w.pass with
      | none =>
        simp only [perform, World.failPass, hp] at hperform
        cases hperform
      | some p => exact ⟨p, rfl⟩
    rw [failPass_eq_some hperform]
    exact h.drop rfl rfl rfl rfl hp (hno p hp).1
  | endPass =>
    obtain ⟨p, hp, -, rfl⟩ := endPass_eq_some hperform
    obtain ⟨hsteady', hle, -, -⟩ := h.current p hp
    refine ⟨?_, fun _ _ => rfl, ?_, ?_⟩
    · intro hfirst
      have hidle := (h.idle hfirst).2
      rw [hp] at hidle
      cases hidle
    · intro c hc
      cases hc
      exact ⟨hsteady', hle⟩
    · intro p' hp'
      cases hp'

/-- **No job makes the occurrences of another one missed**: in every run that contains its failures
and has no clock discontinuity, handling a job leaves the jobs behind it in the pass; and for every
job that can be handled and was not disabled, the newest occurrence that has elapsed is materialized
as a normal run, provided it fell due after the first pass of the process began. -/
theorem occurrences_are_normal {host : Host} {offset : Int} {w w' : World} {ids : Nat → Uuid}
    (h : Reaches host (fun w a => w.steadyClocks offset a ∧ w.containsFailures host a) w)
    (hstep : w.containsFailures host (.reconcileJob ids))
    (hact : w.act host (.reconcileJob ids) = some w') {p : Pass} {job : JobRecord}
    {rest : List JobRecord} (hpass : w.pass = some p) (hjobs : p.jobs = some (job :: rest)) :
    (rest ≠ [] → ∃ p', w'.pass = some p' ∧ p'.jobs = some rest) ∧
    (p.ready host job w.store = true → job.disabledSince = none → InI64 job.cursor →
      InI64 p.sample.wall → ∀ first d compiled o,
      w.history.firstPass = some first → job.definition.definition = some d →
      d.schedule.compile host.zones host.systemZone = .ok compiled →
      Admissible host.zones host.localZone compiled →
      IsGreatest {t | compiled.Occurs host.zones host.localZone t ∧ t ≤ p.sample.wall} o →
      compiled.Reaches o →
      deadlineAfter job.cursor p.sample.wall d.policy.startDeadline < o → first < o →
      ∃ r result, p.reconciliation host job d = .ok r ∧ ⟨o, false⟩ ∈ r.selected ∧
        w.store.materializeWithSummaries job.id (p.cursorUpdate job d)
          (scheduledRuns job p.sample.wall ids r.selected) (r.omitted.map OmittedRange.summary)
          p.sample.wall = .ok (result, w'.store)) := by
  have hremembers : w.Remembers offset := by
    refine Runs.Reaches.invariant (motive := Remembers offset) ?_ ?_ h
    · rintro w ⟨clock, rfl⟩
      refine ⟨fun _ => ⟨rfl, rfl⟩, fun hne => absurd rfl hne, ?_, ?_⟩
      · intro c hc
        cases hc
      · intro p hp
        cases hp
    · intro w a w' hw hallowed hact
      exact hw.step hallowed.1 hallowed.2 hact
  obtain ⟨w₁, hperform, rfl⟩ := act_eq_some hact
  obtain ⟨p₀, job₀, rest₀, hpass₀, hjobs₀, hcases⟩ := reconcileJob_eq_some hperform
  rw [hpass] at hpass₀
  cases hpass₀
  rw [hjobs] at hjobs₀
  cases hjobs₀
  rcases hcases with ⟨e, he, rfl⟩ | ⟨inserted, s, hs, rfl⟩
  · refine ⟨fun hne => absurd (hstep.of_error hpass hjobs he).2 hne, fun hready => ?_⟩
    obtain ⟨x, hx⟩ := Pass.exists_reconcileJob hready ids
    rw [he] at hx
    cases hx
  refine ⟨fun _ => ⟨_, rfl, rfl⟩, ?_⟩
  intro _ hnone hcursor hwall first d compiled o hfirst hd hcompiled hadmissible hgreatest hreach
    hdeadline hlt
  obtain ⟨⟨hoccurs, hle⟩, hnewest⟩ := hgreatest
  have hafter : job.cursor < o := lt_of_le_of_lt (CompiledSchedule.le_deadlineAfter ..) hdeadline
  have hbehind : job.cursor < p.sample.wall := lt_of_lt_of_le hafter hle
  -- a start would have sampled the time of the first pass
  have hstartup : p.startup = false := by
    by_contra hne
    have hsame := (hremembers.current p hpass).2.2.2.2 (Bool.eq_true_of_not_eq_false hne)
    rw [hfirst] at hsame
    cases hsame
    omega
  have hnormal : p.elapsedKind job = .normal := by
    simp [Pass.elapsedKind, hstartup, (hremembers.current p hpass).2.2.1, hnone]
  obtain ⟨d', hd', ⟨hle, -⟩ | ⟨-, r, result, hr, hmaterialize⟩⟩ := Pass.reconcileJob_ok hs
  · omega
  rw [hd] at hd'
  cases hd'
  obtain ⟨compiled', hcompiled', hreconcile⟩ := Pass.reconciliation_ok hr
  rw [hcompiled] at hcompiled'
  cases hcompiled'
  -- the range could be reconciled, so the occurrences in reach are enumerated
  obtain ⟨hlow, hhigh⟩ := endSupported_of_ok hadmissible hcursor hwall hbehind hreconcile
  obtain ⟨occ, henum, hmem⟩ := exists_enumerates hadmissible hcursor hwall hlow hhigh
  have hlast : (Increasing.window occ
    (deadlineAfter job.cursor p.sample.wall d.policy.startDeadline)
      p.sample.wall).getLast? = some o := by
    refine Increasing.getLast?_eq_some (Increasing.sortedLT_window henum.sorted _ _) ?_ ?_
    · exact Increasing.mem_window.mpr
        ⟨(hmem o).mpr ⟨⟨hafter, hle, hoccurs⟩, hreach⟩, hdeadline, hle⟩
    · intro u hu
      obtain ⟨⟨-, hu', hocc⟩, -⟩ := (hmem u).mp (Increasing.mem_window.mp hu).1
      exact hnewest ⟨hocc, hu'⟩
  have hfound := henum.newest _ p.sample.wall (d.policy.catchUpLimit + 1)
    (CompiledSchedule.le_deadlineAfter ..) (lt_of_lt_of_le hdeadline hle) le_rfl (by omega)
  refine ⟨r, result, hr, CompiledSchedule.newest_selected_of_normal hreconcile hbehind hnormal
    hfound ?_, hmaterialize⟩
  rwa [← Increasing.head?_rtake_one, Increasing.rtake_rtake, min_eq_left (by omega),
    Increasing.head?_rtake_one]

/-! ## A conflict on one job -/

def checkSteady (w : World) : Action → Bool
  | .advance clock => w.clock.monotonic ≤ clock.monotonic
  | .beginPass => decide (w.clock.Steady 0)
  | _ => true

theorem steadyClocks_of_check (w : World) (a : Action) (h : checkSteady w a = true) :
    w.steadyClocks 0 a := by
  cases a with
  | advance clock =>
    have hle : w.clock.monotonic ≤ clock.monotonic := of_decide_eq_true h
    exact hle
  | beginPass =>
    have hsteady : w.clock.Steady 0 := of_decide_eq_true h
    exact hsteady
  | _ => trivial

/-- Two hourly jobs; the first pass lists both, and an editor revises the first one. -/
def revisedDuringFirstPass : List Action :=
  [.other (.createJob ⟨1, "a", none, "[]", true, .job hourly, 0, 0⟩),
   .other (.createJob ⟨5, "b", none, "[]", true, .job hourly, 0, 0⟩),
   .advance ⟨1, 1⟩, .beginPass, .listJobs, .read 1,
   .update 0 ⟨"a", some "text", "[]", true, hourly, 1⟩]

/-- **A conflict on one job drops the occurrence of another**: the conflict ends the first pass with
the second job still to be handled, and the next pass counts as the first one, so that the hour of
the second job, which fell due in between, is skipped as missed. -/
theorem conflict_makes_other_job_missed :
    (∃ w w' p job rest, Reaches utcHost (steadyClocks 0) w ∧ w.pass = some p ∧
      p.jobs = some (job :: rest) ∧ rest ≠ [] ∧
      w.act utcHost (.reconcileJob (fun _ => 7)) = some w' ∧ w'.pass = none) ∧
    ∃ w p job, Reaches utcHost (steadyClocks 0) w ∧ w.history.firstPass = some 1 ∧
      w.pass = some p ∧ p.jobs = some [job] ∧ job.id = 5 ∧ job.disabledSince = none ∧
      job.definition = .job hourly ∧
      (CompiledSchedule.every 3600000000 0).newestBetween noZones .utc
        (deadlineAfter job.cursor p.sample.wall none) p.sample.wall 101 = .ok [3600000000] ∧
      ∀ r, p.reconciliation utcHost job hourly = .ok r → ⟨3600000000, false⟩ ∉ r.selected := by
  constructor
  · obtain ⟨w, hw, ⟨w', hw', hended⟩, p, hp, jobs, hjobs, htwo⟩ :=
      exists_reaches utcHost (steadyClocks 0) checkSteady steadyClocks_of_check
        revisedDuringFirstPass ⟨0, 0⟩
        (fun w => (∃ w', w.act utcHost (.reconcileJob (fun _ => 7)) = some w' ∧ w'.pass = none) ∧
          ∃ p, w.pass = some p ∧ ∃ jobs, p.jobs = some jobs ∧ jobs.length = 2) (by decide +kernel)
    obtain ⟨job, other, rfl⟩ := List.length_eq_two.mp htwo
    exact ⟨w, w', p, job, [other], hw, hp, hjobs, by simp, hw', hended⟩
  · obtain ⟨w, hw, hfirst, p, hp, jobs, hjobs, hone, job, hmem, hjob⟩ :=
      exists_reaches utcHost (steadyClocks 0) checkSteady steadyClocks_of_check
        (revisedDuringFirstPass ++ [.reconcileJob (fun _ => 7), .advance ⟨3600000000, 3600000000⟩,
          .beginPass, .listJobs, .reconcileJob (fun _ => 8)]) ⟨0, 0⟩
        (fun w => w.history.firstPass = some 1 ∧ ∃ p, w.pass = some p ∧
          ∃ jobs, p.jobs = some jobs ∧ jobs.length = 1 ∧ ∃ job ∈ jobs, job.id = 5 ∧
            job.disabledSince = none ∧ job.definition = .job hourly ∧
            (CompiledSchedule.every 3600000000 0).newestBetween noZones .utc
              (deadlineAfter job.cursor p.sample.wall none) p.sample.wall 101 = .ok [3600000000] ∧
            ∀ r, p.reconciliation utcHost job hourly = .ok r →
              (⟨3600000000, false⟩ : SelectedOccurrence) ∉ r.selected) (by decide +kernel)
    obtain ⟨_, rfl⟩ := List.length_eq_one_iff.mp hone
    cases List.mem_singleton.mp hmem
    exact ⟨w, p, job, hw, hfirst, hp, hjobs, hjob⟩

def checkContains (w : World) : Action → Bool
  | .reconcileJob _ =>
    match w.pass with
    | some ⟨sample, startup, discontinuity, some (job :: rest)⟩ =>
      Pass.ready utcHost ⟨sample, startup, discontinuity, some (job :: rest)⟩ job w.store
    | _ => true
  | .failPass => false
  | _ => true

theorem containsFailures_of_check (w : World) (a : Action) (h : checkContains w a = true) :
    w.containsFailures utcHost a := by
  cases a with
  | reconcileJob ids =>
    intro p job rest hpass hjobs _
    obtain ⟨sample, startup, discontinuity, jobs⟩ := p
    cases hjobs
    simpa only [checkContains, hpass] using h
  | failPass => cases h
  | _ => trivial

/-- The hour after the start is a normal run. -/
theorem occurrences_are_normal_hourly :
    ∃ w w' p job r result,
      Reaches utcHost (fun w a => w.steadyClocks 0 a ∧ w.containsFailures utcHost a) w ∧
      w.act utcHost (.reconcileJob (fun _ => 7)) = some w' ∧ w.pass = some p ∧
      p.reconciliation utcHost job hourly = .ok r ∧ ⟨3600000000, false⟩ ∈ r.selected ∧
      w.store.materializeWithSummaries job.id (p.cursorUpdate job hourly)
        (scheduledRuns job p.sample.wall (fun _ => 7) r.selected)
        (r.omitted.map OmittedRange.summary) p.sample.wall = .ok (result, w'.store) := by
  obtain ⟨w, hw, hfirst, ⟨w', hw', -⟩, p, hp, jobs, hjobs, hone, job, hmem, hready, hnone, hcursor,
      hwall, hdefinition⟩ := exists_reaches utcHost
    (fun w a => w.steadyClocks 0 a ∧ w.containsFailures utcHost a)
    (fun w a => checkSteady w a && checkContains w a)
    (fun w a h => ⟨steadyClocks_of_check w a (Bool.and_eq_true_iff.mp h).1,
      containsFailures_of_check w a (Bool.and_eq_true_iff.mp h).2⟩)
    (.other (.createJob ⟨1, "a", none, "[]", true, .job hourly, 0, 0⟩) :: passAt 1 2 ++
      [.advance ⟨3600000000, 3600000000⟩, .beginPass, .listJobs]) ⟨0, 0⟩
    (fun w => w.history.firstPass = some 1 ∧
      (∃ w', w.act utcHost (.reconcileJob (fun _ => 7)) = some w' ∧ True) ∧
      ∃ p, w.pass = some p ∧ ∃ jobs, p.jobs = some jobs ∧ jobs.length = 1 ∧ ∃ job ∈ jobs,
        p.ready utcHost job w.store = true ∧ job.disabledSince = none ∧ job.cursor = 1 ∧
        p.sample.wall = 3600000000 ∧ job.definition = .job hourly) (by decide +kernel)
  obtain ⟨_, rfl⟩ := List.length_eq_one_iff.mp hone
  cases List.mem_singleton.mp hmem
  have hstep : w.containsFailures utcHost (.reconcileJob (fun _ => 7)) := by
    intro p' job' rest hp' hjobs' _
    cases hp.symm.trans hp'
    cases hjobs.symm.trans hjobs'
    exact hready
  have hadmissible : Admissible utcHost.zones utcHost.localZone (.every 3600000000 0) := by
    refine ⟨?_, ?_, ?_⟩ <;> decide
  obtain ⟨r, result, hr, hselected, hmaterialize⟩ :=
    (occurrences_are_normal hw hstep hw' hp hjobs).2 hready hnone (by rw [hcursor]; decide)
      (by rw [hwall]; decide) 1 hourly (.every 3600000000 0) 3600000000 hfirst
      (by rw [hdefinition]; rfl) (by rfl) hadmissible
      ⟨⟨⟨1, by decide⟩, hwall.ge⟩, fun t ht => ht.2.trans hwall.le⟩
        (show (3600000000 : Int) ≤ 0 + i64Max by decide)
      (by rw [hcursor, hwall]; decide) (by decide)
  exact ⟨w, w', p, job, r, result, hw, hw', hp, hr, hselected, hmaterialize⟩

end World

end Locron
