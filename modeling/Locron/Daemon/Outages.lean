import Locron.Daemon.World

set_option autoImplicit false

/-! # Time spent disabled

The database remembers in one column that a job was disabled since its cursor. A new revision of an
enabled job starts without that record, though it may take over the cursor; and a materialization
clears it, though the job may have been disabled and enabled again after the pass sampled its clock.
In runs without these two, what fell due while a job was disabled never becomes a normal run.
-/

namespace Locron

namespace World

/-- The job was disabled at that time. -/
def Down (w : World) (job : Uuid) (t : Int) : Prop :=
  ∃ x ∈ w.history.outages, x.1 = job ∧ x.2.1 < t ∧ t ≤ x.2.2

/-- Time moves forward; an edit that leaves a job enabled writes a cursor behind which all its
outages lie; and so does a materialization of a job that is enabled. -/
def coversOutages (w : World) : Action → Prop
  | .advance clock => w.clock.wall ≤ clock.wall
  | .reconcileJob _ => ∀ p job rest j, w.pass = some p → p.jobs = some (job :: rest) →
      w.store.liveJob job.id = some j → j.enabled = true →
      ∀ t, w.Down job.id t → t ≤ p.sample.wall
  | a => ∀ x ∈ w.plannedUpdates a, x.2.enabled = true → ∀ t, w.Down x.2.id t → t ≤ x.2.cursor

/-- The outages of an enabled job that has no record of them lie behind its cursor. -/
def Covered (down : Uuid → Int → Prop) (s : Store) : Prop :=
  (∀ job t, down job t → (s.position job).isSome = true) ∧
  ∀ job j c, s.position job = some (j, c) → j.enabled = true → c.disabledSince = none →
    ∀ t, down job t → t ≤ c.cursor

/-! ## What transactions do to the records -/

section Covered

variable {down : Uuid → Int → Prop} {s s' : Store}

theorem Covered.keepsPositions (h : Covered down s) (hkeeps : Store.KeepsPositions s s') :
    Covered down s' := by
  refine ⟨?_, ?_⟩
  · intro job t ht
    obtain ⟨x, hx⟩ := Option.isSome_iff_exists.mp (h.1 job t ht)
    obtain ⟨j', c', hposition, -⟩ := hkeeps job x.1 x.2 hx
    rw [hposition]
    rfl
  · intro job j' c' hposition' henabled hnone t ht
    obtain ⟨⟨j, c⟩, hposition⟩ := Option.isSome_iff_exists.mp (h.1 job t ht)
    obtain ⟨j₁, c₁, hposition₁, hkeep⟩ := hkeeps job j c hposition
    rw [hposition'] at hposition₁
    cases hposition₁
    have hnone₀ : c.disabledSince = none := by
      rw [← Option.not_isSome_iff_eq_none]
      intro hsome
      have := hkeep.disabledSince hsome
      rw [hnone] at this
      cases this
    have henabled₀ : j.enabled = true := by
      rcases hkeep.enabled henabled with henabled | hsome
      · exact henabled
      · rw [hnone] at hsome
        cases hsome
    rw [hkeep.cursor]
    exact h.2 job j c hposition henabled₀ hnone₀ t ht

theorem Covered.moved {job : Uuid} (h : Covered down s)
    (hother : ∀ id, id ≠ job → s'.position id = s.position id)
    (hown : ∃ j c, s'.position job = some (j, c) ∧
      (j.enabled = true → ∀ t, down job t → t ≤ c.cursor)) : Covered down s' := by
  obtain ⟨j, c, hposition, hcursor⟩ := hown
  refine ⟨?_, ?_⟩
  · intro id t ht
    by_cases hid : id = job
    · rw [hid, hposition]
      rfl
    · rw [hother id hid]
      exact h.1 id t ht
  · intro id j' c' hposition' henabled hnone t ht
    by_cases hid : id = job
    · subst hid
      cases hposition.symm.trans hposition'
      exact hcursor henabled t ht
    · rw [hother id hid] at hposition'
      exact h.2 id j' c' hposition' henabled hnone t ht

theorem Covered.revised {job : UpdateJob} {now : Int} (h : Covered down s)
    (hrevised : Store.Revised job now s s')
    (hcursor : job.enabled = true → ∀ t, down job.id t → t ≤ job.cursor) : Covered down s' := by
  obtain ⟨j, -, -, hposition⟩ := (Store.position_revised hrevised job.id).2 rfl
  exact h.moved (fun id => (Store.position_revised hrevised id).1) ⟨_, _, hposition, hcursor⟩

theorem Covered.applyImport {batch : ImportBatch} (h : Covered down s)
    (hcursor : ∀ resolution job, .update resolution job ∈ batch.jobs → job.enabled = true →
      ∀ t, down job.id t → t ≤ job.cursor)
    (himport : s.applyImport batch = .ok s') : Covered down s' := by
  refine Store.applyImport_position_induction (motive := Covered down) ?_ ?_ ?_ h himport
  · intro job t t' ht hcreated
    exact ht.keepsPositions (Store.keepsPositions_of_created hcreated)
  · intro resolution job t t' hmem _ ht hrevised
    exact ht.revised hrevised (hcursor resolution job hmem)
  · intro t t' ht hsame
    exact ht.keepsPositions (Store.keepsPositions_of_keepsDefinitions hsame.toKeepsDefinitions)

theorem Covered.materialize {job : Uuid} {cursor : CursorUpdate} {runs : List NewScheduledRun}
    {summaries : List ReconciliationSummary} {now : Int} {result : MaterializedRun}
    (h : Covered down s)
    (hmaterialize : s.materializeWithSummaries job cursor runs summaries now = .ok (result, s'))
    (hcursor : ∀ j, s.liveJob job = some j → j.enabled = true →
      ∀ t, down job t → t ≤ cursor.newCursor) : Covered down s' := by
  obtain ⟨j, c, j', hposition, hlive, -, -, hposition', henabled⟩ :=
    (Store.position_materialized hmaterialize job).2 rfl
  refine h.moved (fun id => (Store.position_materialized hmaterialize id).1)
    ⟨_, _, hposition', fun hstays => hcursor j ?_ (henabled hstays)⟩
  unfold Store.liveJob
  rw [(Store.position_eq_some.mp hposition).1]
  exact Option.filter_eq_some_iff.mpr ⟨rfl, by rw [hlive]; rfl⟩

end Covered

/-! ## The invariant -/

/-- Outages are remembered until they are reconciled, and none became a normal run. -/
structure OutagesMissed (w : World) : Prop where
  bounded : ∀ job t, w.Down job t → t ≤ w.clock.wall
  covered : Covered w.Down w.store
  sampled : ∀ p, w.pass = some p → p.sample.wall ≤ w.clock.wall
  listed : ∀ p jobs, w.pass = some p → p.jobs = some jobs → ∀ record ∈ jobs,
    record.disabledSince = none → ∀ t, w.Down record.id t → t ≤ record.cursor ∨ p.sample.wall < t
  elapsed : ∀ r ∈ w.store.runs.rows, r.trigger ≠ .manual → ∀ t, r.nominal = some t →
    t ≤ w.clock.wall
  normal : ∀ r ∈ w.store.runs.rows, r.trigger = .scheduled → ∀ t, r.nominal = some t →
    ¬ w.Down r.jobId t

theorem mem_disabledJobs {s : Store} {job : Uuid} (h : job ∈ disabledJobs s) :
    ∃ j c, s.position job = some (j, c) ∧ j.enabled = false := by
  obtain ⟨j, hj, rfl⟩ := List.mem_map.mp h
  rw [List.mem_filter, Bool.and_eq_true, Bool.not_eq_true'] at hj
  obtain ⟨hmem, hdisabled, hsome⟩ := hj
  obtain ⟨⟨j', c⟩, hposition⟩ := Option.isSome_iff_exists.mp hsome
  obtain rfl : j = j' := by
    have hfind := (Store.position_eq_some.mp hposition).1
    exact Option.some.inj ((Table.find_of_mem hmem).symm.trans hfind)
  exact ⟨j, c, hposition, hdisabled⟩

theorem listed_of_mem {s : Store} {record : JobRecord} (h : record ∈ s.listJobs false) :
    ∃ j c, s.position record.id = some (j, c) ∧ j.enabled = true ∧ record.cursor = c.cursor ∧
      record.disabledSince = c.disabledSince := by
  unfold Store.listJobs at h
  rw [List.mem_insertionSort, List.mem_filterMap] at h
  obtain ⟨j, hj, hread⟩ := h
  rw [List.mem_filter, Bool.and_eq_true, Bool.false_or] at hj
  obtain ⟨j', c, hposition, hid, -, -, -, hcursor, hsince⟩ := Store.position_of_readJob hread
  obtain rfl : j = j' := by
    have hfind := (Store.position_eq_some.mp hposition).1
    exact Option.some.inj ((Table.find_of_mem hj.1).symm.trans hfind)
  rw [hid]
  exact ⟨j, c, hposition, hj.2.2, hcursor, hsince⟩

section Step

variable {host : Host} {w w' : World} {a : Action}

theorem OutagesMissed.advance {clock : ClockSample} (hw : w.OutagesMissed)
    (hle : w.clock.wall ≤ clock.wall) (hclock : w'.clock = clock) (hstore : w'.store = w.store)
    (hpass : w'.pass = w.pass) (houtages : w'.history.outages = w.history.outages ++
      (disabledJobs w.store).map (fun job => (job, w.clock.wall, clock.wall))) :
    w'.OutagesMissed := by
  have hdown : ∀ job t, w'.Down job t → w.Down job t ∨
      ((∃ j c, w.store.position job = some (j, c) ∧ j.enabled = false) ∧ w.clock.wall < t ∧
        t ≤ clock.wall) := by
    rintro job t ⟨x, hx, hjob, hlow, hhigh⟩
    rw [houtages, List.mem_append] at hx
    rcases hx with hx | hx
    · exact Or.inl ⟨x, hx, hjob, hlow, hhigh⟩
    obtain ⟨job', hmem, rfl⟩ := List.mem_map.mp hx
    cases hjob
    exact Or.inr ⟨mem_disabledJobs hmem, hlow, hhigh⟩
  refine ⟨?_, ⟨?_, ?_⟩, ?_, ?_, ?_, ?_⟩
  · intro job t ht
    rw [hclock]
    rcases hdown job t ht with ht | ⟨-, -, hhigh⟩
    · exact (hw.bounded job t ht).trans hle
    · exact hhigh
  · intro job t ht
    rw [hstore]
    rcases hdown job t ht with ht | ⟨⟨j, c, hposition, -⟩, -⟩
    · exact hw.covered.1 job t ht
    · rw [hposition]
      rfl
  · intro job j c hposition henabled hnone t ht
    rw [hstore] at hposition
    rcases hdown job t ht with ht | ⟨⟨j', c', hposition', hdisabled⟩, -⟩
    · exact hw.covered.2 job j c hposition henabled hnone t ht
    rw [hposition] at hposition'
    cases hposition'
    rw [hdisabled] at henabled
    cases henabled
  · intro p hp
    rw [hpass] at hp
    rw [hclock]
    exact (hw.sampled p hp).trans hle
  · intro p jobs hp hjobs record hrecord hnone t ht
    rw [hpass] at hp
    rcases hdown record.id t ht with ht | ⟨-, hlow, -⟩
    · exact hw.listed p jobs hp hjobs record hrecord hnone t ht
    · exact Or.inr (lt_of_le_of_lt (hw.sampled p hp) hlow)
  · intro r hr ht t hnominal
    rw [hstore] at hr
    rw [hclock]
    exact (hw.elapsed r hr ht t hnominal).trans hle
  · intro r hr ht t hnominal hdown'
    rw [hstore] at hr
    rcases hdown r.jobId t hdown' with hdown' | ⟨-, hlow, -⟩
    · exact hw.normal r hr ht t hnominal hdown'
    · have hle' := hw.elapsed r hr (by rw [ht]; decide) t hnominal
      omega

/-- The records of outages after a transaction. -/
theorem Covered.commits {down : Uuid → Int → Prop} {s' : Store} (h : Covered down w.store)
    (hedits : ∀ x ∈ w.plannedUpdates a, x.2.enabled = true → ∀ t, down x.2.id t → t ≤ x.2.cursor)
    (hpass : ∀ ids, a = .reconcileJob ids → ∀ p job rest j, w.pass = some p →
      p.jobs = some (job :: rest) → w.store.liveJob job.id = some j → j.enabled = true →
      ∀ t, down job.id t → t ≤ p.sample.wall)
    (hcommits : Commits host w a s') : Covered down s' := by
  cases hcommits with
  | nothing hs =>
    rw [hs]
    exact h
  | other op ha hop happly => exact h.keepsPositions (Store.apply_keepsPositions hop happly)
  | update current job hplan hupdate =>
    exact h.revised (Store.updateJob_ok hupdate) (hedits _ hplan)
  | importJobs batch hplan himport =>
    refine h.applyImport (fun resolution job hmem => ?_) himport
    obtain ⟨current, hcurrent⟩ := hplan resolution job hmem
    exact hedits _ hcurrent
  | reconcile p job ids ha hmaterializes =>
    obtain ⟨rest, hjobs⟩ := hmaterializes.next
    obtain ⟨d, r, result, ids', -, -, hcommit⟩ := hmaterializes.commit
    refine h.materialize hcommit ?_
    intro j hj henabled
    exact hpass ids ha p job rest j hmaterializes.pass hjobs hj henabled

theorem OutagesMissed.step (hreachable : Store.Reachable Store.anyOp w.store)
    (hw : w.OutagesMissed) (hallowed : w.coversOutages a) (h : w.act host a = some w') :
    w'.OutagesMissed := by
  have hcommits := commits_of_act h
  rcases clock_of_act h with ⟨clock, rfl, hclock, hstore, hpass, houtages⟩ | ⟨hclock, houtages⟩
  · exact hw.advance hallowed hclock hstore hpass houtages
  have hdown : w'.Down = w.Down := by
    unfold Down
    rw [houtages]
  have hedits : ∀ x ∈ w.plannedUpdates a, x.2.enabled = true → ∀ t, w.Down x.2.id t →
      t ≤ x.2.cursor := by
    cases a with
    | update | importJobs => exact hallowed
    | _ => exact fun x hx => by cases hx
  have hnext : ∀ ids, a = .reconcileJob ids → ∀ p job rest j, w.pass = some p →
      p.jobs = some (job :: rest) → w.store.liveJob job.id = some j → j.enabled = true →
      ∀ t, w.Down job.id t → t ≤ p.sample.wall := by
    rintro ids rfl
    exact hallowed
  refine ⟨?_, ?_, ?_, ?_, ?_, ?_⟩
  · rw [hdown, hclock]
    exact hw.bounded
  · rw [hdown]
    exact hw.covered.commits hedits hnext hcommits
  · intro p' hp'
    rw [hclock]
    rcases pass_of_act h hp' with hp | ⟨-, -, rfl⟩ | ⟨p, hp, rfl, -⟩ | ⟨p, job, rest, hp, -, rfl⟩
    · exact hw.sampled p' hp
    · exact le_refl _
    · exact hw.sampled p hp
    · exact hw.sampled p hp
  · intro p' jobs hp' hjobs record hrecord hnone t ht
    rw [hdown] at ht
    rcases pass_of_act h hp' with hp | ⟨-, -, rfl⟩ | ⟨p, hp, rfl, -⟩ |
      ⟨p, job, rest, hp, hjobs', rfl⟩
    · exact hw.listed p' jobs hp hjobs record hrecord hnone t ht
    · cases hjobs
    · -- just listed: the record is the database's
      cases hjobs
      obtain ⟨j, c, hposition, henabled, hcursor, hsince⟩ := listed_of_mem hrecord
      rw [hcursor]
      exact Or.inl (hw.covered.2 record.id j c hposition henabled (hsince.symm.trans hnone) t ht)
    · cases hjobs
      exact hw.listed p _ hp hjobs' record (List.mem_cons_of_mem _ hrecord) hnone t ht
  · intro r' hr' htrigger t hnominal
    rw [hclock]
    rcases hcommits.rows hreachable hr' htrigger with ⟨r, hr, hsame⟩ |
      ⟨p, job, ids, d, r, o, -, hmaterializes, hreconciliation, ho, -, -, hnominal', -⟩
    · rw [hsame.trigger] at htrigger
      rw [hsame.nominal] at hnominal
      exact hw.elapsed r hr htrigger t hnominal
    · rw [hnominal] at hnominal'
      cases hnominal'
      exact ((Pass.reconciliation_between hreconciliation o ho).2).trans
        (hw.sampled p hmaterializes.pass)
  · intro r' hr' htrigger t hnominal
    rw [hdown]
    rcases hcommits.rows hreachable hr' (by rw [htrigger]; decide) with ⟨r, hr, hsame⟩ |
      ⟨p, job, ids, d, r, o, -, hmaterializes, hreconciliation, ho, hjob, -, hnominal', htrigger'⟩
    · rw [hsame.trigger] at htrigger
      rw [hsame.nominal] at hnominal
      rw [hsame.jobId]
      exact hw.normal r hr htrigger t hnominal
    · -- a normal run: the job was listed without a record of an outage
      intro hdown'
      rw [hnominal] at hnominal'
      cases hnominal'
      rw [hjob] at hdown'
      have hnone : job.disabledSince = none := by
        by_contra hsome
        have hmissed : p.elapsedKind job = .missed := by
          simp [Pass.elapsedKind, Option.isSome_iff_ne_none.mpr hsome]
        rw [htrigger, Pass.reconciliation_missed hreconciliation hmissed o ho] at htrigger'
        cases htrigger'
      obtain ⟨rest, hjobs⟩ := hmaterializes.next
      obtain ⟨hlow, hhigh⟩ := Pass.reconciliation_between hreconciliation o ho
      rcases hw.listed p (job :: rest) hmaterializes.pass hjobs job (List.mem_cons_self ..) hnone
        o.nominal hdown' with hle | hlt
      · omega
      · omega

end Step

/-- **Time spent disabled is missed**: in every run in which edits that leave a job enabled and
materializations of enabled jobs cover the outages, no run of the schedule that fell due while its
job was disabled is a normal one. -/
theorem outages_are_missed {host : Host} {w : World} (h : Reaches host coversOutages w) :
    ∀ r ∈ w.store.runs.rows, r.trigger = .scheduled → ∀ t, r.nominal = some t →
      ¬ w.Down r.jobId t := by
  have hinvariant : Store.Reachable Store.anyOp w.store ∧ w.OutagesMissed := by
    refine Runs.Reaches.invariant (motive := fun w => Store.Reachable Store.anyOp w.store ∧
      w.OutagesMissed) ?_ ?_ h
    · rintro w ⟨clock, rfl⟩
      refine ⟨.refl, ?_, ⟨?_, ?_⟩, ?_, ?_, ?_, ?_⟩
      · rintro job t ⟨x, hx, -⟩
        cases hx
      · rintro job t ⟨x, hx, -⟩
        cases hx
      · intro job j c hposition
        cases hposition
      · intro p hp
        cases hp
      · intro p jobs hp
        cases hp
      · intro r hr
        cases hr
      · intro r hr
        cases hr
    · intro w a w' hw hallowed hact
      exact ⟨(commits_of_act hact).reachable hw.1, hw.2.step hw.1 hallowed hact⟩
  exact hinvariant.2.normal

/-! ## Two ways to lose the record -/

/-- Time moves forward. -/
def forward (w : World) : Action → Bool
  | .advance clock => w.clock.wall ≤ clock.wall
  | _ => true

instance (w : World) (job : Uuid) (t : Int) : Decidable (w.Down job t) :=
  inferInstanceAs (Decidable (∃ x ∈ w.history.outages, _))

def startHourly : List Action :=
  .other (.createJob ⟨1, "job", none, "[]", true, .job hourly, 0, 0⟩) :: passAt 1 2

/-- **Outages become normal runs**: when an update enables a disabled job, and when a job is
disabled and enabled again between the samples of a pass and its materialization. -/
theorem outage_runs_normally :
    (∃ w, Reaches utcHost (fun w a => w.forward a = true) w ∧
      ∃ r ∈ w.store.runs.rows, r.trigger = .scheduled ∧ r.nominal = some 3600000000 ∧
        w.Down r.jobId 3600000000) ∧
    ∃ w, Reaches utcHost (fun w a => w.forward a = true ∧ w.plannedUpdates a = []) w ∧
      ∃ r ∈ w.store.runs.rows, r.trigger = .scheduled ∧ r.nominal = some 3600000000 ∧
        w.Down r.jobId 3600000000 := by
  constructor
  · exact exists_reaches utcHost (fun w a => w.forward a = true) forward (fun _ _ h => h)
      (startHourly ++ [.other (.setEnabled 1 false 1), .advance ⟨3600000001, 3600000001⟩, .read 1,
        .update 0 ⟨"job", none, "[]", true, hourly, 3600000001⟩] ++ passAt 3600000002 3) ⟨0, 0⟩ _
      (by decide +kernel)
  · exact exists_reaches utcHost (fun w a => w.forward a = true ∧ w.plannedUpdates a = [])
      (fun w a => w.forward a && (w.plannedUpdates a).isEmpty) (fun _ _ h => by simpa using h)
      (startHourly ++ [.advance ⟨10, 10⟩, .beginPass, .listJobs, .other (.setEnabled 1 false 10),
        .advance ⟨3600000001, 3600000001⟩, .other (.setEnabled 1 true 3600000001),
        .reconcileJob (fun _ => 2), .endPass] ++ passAt 3600000002 3) ⟨0, 0⟩ _ (by decide +kernel)

/-- A check that implies the condition: no edits, and all outages of the next job end before the
samples of the pass. -/
def checkOutages (w : World) : Action → Bool
  | .advance clock => w.clock.wall ≤ clock.wall
  | .reconcileJob _ =>
    match w.pass with
    | some ⟨sample, _, _, some (job :: _)⟩ =>
      w.history.outages.all (fun x => x.1 != job.id || x.2.2 ≤ sample.wall)
    | _ => true
  | a => (w.plannedUpdates a).isEmpty

theorem coversOutages_of_check (w : World) (a : Action) (h : checkOutages w a = true) :
    w.coversOutages a := by
  have hedits : ∀ a : Action, (w.plannedUpdates a).isEmpty = true → ∀ x ∈ w.plannedUpdates a,
      x.2.enabled = true → ∀ t, w.Down x.2.id t → t ≤ x.2.cursor := by
    intro a hempty x hx
    rw [List.isEmpty_iff.mp hempty] at hx
    cases hx
  cases a with
  | advance clock =>
    have hle : w.clock.wall ≤ clock.wall := of_decide_eq_true h
    exact hle
  | reconcileJob ids =>
    rintro p job rest j hpass hjobs - - t ⟨x, hx, hjob, -, hhigh⟩
    obtain ⟨sample, startup, discontinuity, jobs⟩ := p
    cases hjobs
    simp only [checkOutages, hpass, List.all_eq_true, Bool.or_eq_true, bne_iff_ne,
      decide_eq_true_eq] at h
    rcases h x hx with hne | hle
    · exact absurd hjob hne
    · exact hhigh.trans hle
  | _ => exact hedits _ h

/-- A job that was disabled at its first hour and enabled again: that hour has no normal run, the
next one has. -/
theorem outages_are_missed_enabled :
    ∃ w, Reaches utcHost coversOutages w ∧ w.Down 1 3600000000 ∧
      (∃ r ∈ w.store.runs.rows, r.jobId = 1 ∧ r.trigger = .scheduled ∧
        r.nominal = some 7200000000) ∧
      ∀ r ∈ w.store.runs.rows, r.jobId = 1 → r.trigger = .scheduled →
        r.nominal ≠ some 3600000000 := by
  obtain ⟨w, hw, hdown, hnext⟩ := exists_reaches utcHost coversOutages
    checkOutages coversOutages_of_check
    (startHourly ++ [.other (.setEnabled 1 false 1), .advance ⟨3600000001, 3600000001⟩,
      .other (.setEnabled 1 true 3600000001)] ++ passAt 3600000002 4 ++ passAt 7200000000 5) ⟨0, 0⟩
    (fun w => w.Down 1 3600000000 ∧ ∃ r ∈ w.store.runs.rows, r.jobId = 1 ∧ r.trigger = .scheduled ∧
      r.nominal = some 7200000000) (by decide +kernel)
  refine ⟨w, hw, hdown, hnext, fun r hr hjob htrigger hnominal => ?_⟩
  exact outages_are_missed hw r hr htrigger 3600000000 hnominal (hjob ▸ hdown)

end World

end Locron
