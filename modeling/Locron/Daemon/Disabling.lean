import Locron.Daemon.World

set_option autoImplicit false

/-! # Disabling and the pass

The guard of a materialization checks that the job is live, its revision and its cursor, but not
that it is enabled: a job that was disabled after the pass listed it is still materialized, and the
record that it was disabled is cleared. Every other transaction respects the flag.
-/

namespace Locron

namespace Store

def off (s : Store) (job : Uuid) : Bool :=
  (s.jobs.find job).any (fun j => !j.enabled || j.removedAt.isSome)

/-- The database records that the job was disabled, or the job is enabled. -/
def remembers (s : Store) (job : Uuid) : Prop :=
  ∃ j c, s.position job = some (j, c) ∧ (j.enabled = true ∨ c.disabledSince.isSome = true)

/-- A new revision of a disabled job records it again. -/
theorem Revised.remembers {s s' : Store} {job : UpdateJob} {now : Int} (h : Revised job now s s')
    {id : Uuid} (hid : s.remembers id) : s'.remembers id := by
  obtain ⟨hother, hown⟩ := position_revised h id
  by_cases heq : id = job.id
  · obtain ⟨j, -, -, hposition⟩ := hown heq
    refine ⟨_, _, hposition, ?_⟩
    show job.enabled = true ∨ (if job.enabled then none else some now).isSome = true
    cases job.enabled with
    | true => exact Or.inl rfl
    | false => exact Or.inr rfl
  · obtain ⟨j, c, hposition, hor⟩ := hid
    exact ⟨j, c, (hother heq).trans hposition, hor⟩

theorem remembers_of_applyImport {s s' : Store} {batch : ImportBatch}
    (h : s.applyImport batch = .ok s') {id : Uuid} (hid : s.remembers id) : s'.remembers id := by
  refine applyImport_position_induction (motive := fun t => t.remembers id) ?_ ?_ ?_ hid h
  · rintro job t t' ⟨j, c, hposition, hor⟩ hcreated
    exact ⟨j, c, position_created hcreated hposition, hor⟩
  · intro resolution job t t' _ _ ht hrevised
    exact hrevised.remembers ht
  · rintro t t' ⟨j, c, hposition, hor⟩ hsame
    refine ⟨j, c, ?_, hor⟩
    unfold position
    rw [hsame.jobs, hsame.cursors]
    exact hposition

end Store

namespace World

/-- The next job of the pass, if it is still live, is enabled when it is materialized. -/
def findsEnabled (w : World) : Action → Prop
  | .reconcileJob _ => ∀ p job rest, w.pass = some p → p.jobs = some (job :: rest) →
      ∀ j, w.store.liveJob job.id = some j → j.enabled = true
  | _ => True

theorem Materializes.not_off {host : Host} {w : World} {p : Pass} {job : JobRecord} {s' : Store}
    {ids : Nat → Uuid} (h : Materializes host w p job s')
    (hfinds : w.findsEnabled (.reconcileJob ids)) : w.store.off job.id = false := by
  obtain ⟨rest, hjobs⟩ := h.next
  obtain ⟨d, r, result, ids', -, -, hcommit⟩ := h.commit
  obtain ⟨j, c, j', hposition, hlive, -⟩ := (Store.position_materialized hcommit job.id).2 rfl
  have hj := (Store.position_eq_some.mp hposition).1
  have henabled : j.enabled = true := by
    refine hfinds p job rest h.pass hjobs j ?_
    unfold Store.liveJob
    rw [hj]
    exact Option.filter_eq_some_iff.mpr ⟨rfl, by rw [hlive]; rfl⟩
  simp [Store.off, hj, henabled, hlive]

/-- **Disabling takes effect at commit**: in every reachable state, an action whose materialization
finds its job enabled inserts no run of a job that is disabled or removed, and leaves the record
that a job is disabled, unless it enables the job. -/
theorem disabled_until_enabled {host : Host} {w w' : World} {a : Action}
    (h : Reaches host (fun _ _ => True) w) (hfinds : w.findsEnabled a)
    (hact : w.act host a = some w') {job : Uuid} (hoff : w.store.off job = true) :
    (∀ x ∈ insertedRuns w.store w'.store, x.1 ≠ job) ∧
    ((∃ j c, w.store.position job = some (j, c) ∧ c.disabledSince.isSome = true) →
      w'.store.remembers job) := by
  have hcommits := commits_of_act hact
  -- a materialization is of another job
  have hother : ∀ p record ids, a = .reconcileJob ids → Materializes host w p record w'.store →
      job ≠ record.id := by
    rintro p record ids rfl hmaterializes rfl
    rw [hmaterializes.not_off hfinds] at hoff
    cases hoff
  refine ⟨?_, ?_⟩
  · intro x hx hjob
    rcases hcommits.insertedRuns_cases h.store with hnil | ⟨p, record, ids, ha, hmaterializes⟩
    · rw [hnil] at hx
      cases hx
    · exact hother p record ids ha hmaterializes
        (hjob.symm.trans (hmaterializes.mem_insertedRuns hx).1)
  · rintro ⟨j, c, hposition, hsome⟩
    cases hcommits with
    | nothing hs =>
      rw [hs]
      exact ⟨j, c, hposition, Or.inr hsome⟩
    | other op ha hop happly =>
      obtain ⟨j', c', hposition', hkeeps⟩ := Store.apply_keepsPositions hop happly job j c hposition
      exact ⟨j', c', hposition', Or.inr (hkeeps.disabledSince hsome)⟩
    | update current update hplan hupdate =>
      exact (Store.updateJob_ok hupdate).remembers ⟨j, c, hposition, Or.inr hsome⟩
    | importJobs batch hplan himport =>
      exact Store.remembers_of_applyImport himport ⟨j, c, hposition, Or.inr hsome⟩
    | reconcile p record ids ha hmaterializes =>
      obtain ⟨d, r, result, ids', -, -, hcommit⟩ := hmaterializes.commit
      have hne := hother p record ids ha hmaterializes
      exact ⟨j, c, ((Store.position_materialized hcommit job).1 hne).trans hposition, Or.inr hsome⟩

/-! ## A disable between the list and the materialization -/

def disabledAfterList : List Action :=
  .other (.createJob ⟨1, "job", none, "[]", true, .job hourly, 0, 0⟩) :: passAt 1 2 ++
    [.advance ⟨3600000000, 3600000000⟩, .beginPass, .listJobs,
     .other (.setEnabled 1 false 3600000000)]

/-- **A disabled job is materialized**: the pass had listed it before, inserts the run, and clears
the record that the job is disabled. -/
theorem disabled_job_materialized :
    ∃ w w', Reaches utcHost (fun _ _ => True) w ∧ w.store.off 1 = true ∧
      (∃ j c, w.store.position 1 = some (j, c) ∧ c.disabledSince.isSome = true) ∧
      w.act utcHost (.reconcileJob (fun _ => 3)) = some w' ∧
      (1, some 3600000000, 3) ∈ insertedRuns w.store w'.store ∧ ¬ w'.store.remembers 1 := by
  obtain ⟨w, hw, hoff, ⟨⟨j, c⟩, hposition⟩, w', hw', hrun, hforgets⟩ :=
    exists_reaches utcHost (fun _ _ => True) (fun _ _ => true) (fun _ _ _ => trivial)
      disabledAfterList ⟨0, 0⟩
      (fun w => w.store.off 1 = true ∧
        (∃ x, w.store.position 1 = some x ∧ x.2.disabledSince.isSome = true) ∧
        ∃ w', w.act utcHost (.reconcileJob (fun _ => 3)) = some w' ∧
          (1, some 3600000000, 3) ∈ insertedRuns w.store w'.store ∧
          ∀ x, w'.store.position 1 = some x →
            ¬ (x.1.enabled = true ∨ x.2.disabledSince.isSome = true)) (by decide +kernel)
  refine ⟨w, w', hw, hoff, ⟨j, c, hposition⟩, hw', hrun, ?_⟩
  rintro ⟨j', c', hposition', hremembers⟩
  exact hforgets _ hposition' hremembers

/-- A disabled job beside an enabled one: the pass inserts the run of the enabled job only, and the
record that the other is disabled stays. -/
theorem disabled_until_enabled_beside :
    ∃ w w', Reaches utcHost (fun _ _ => True) w ∧
      w.act utcHost (.reconcileJob (fun _ => 3)) = some w' ∧
      (1, some 3600000000, 3) ∈ insertedRuns w.store w'.store ∧
      (∀ x ∈ insertedRuns w.store w'.store, x.1 ≠ 5) ∧ w'.store.remembers 5 := by
  obtain ⟨w, hw, hfinds, hoff, ⟨⟨j, c⟩, hposition⟩, w', hw', hrun⟩ :=
    exists_reaches utcHost (fun _ _ => True) (fun _ _ => true) (fun _ _ _ => trivial)
      (.other (.createJob ⟨1, "job", none, "[]", true, .job hourly, 0, 0⟩) :: passAt 1 2 ++
        [.other (.createJob ⟨5, "other", none, "[]", true, .job hourly, 1, 1⟩),
         .other (.setEnabled 5 false 1), .advance ⟨3600000000, 3600000000⟩, .beginPass, .listJobs])
      ⟨0, 0⟩
      (fun w => (∀ p, w.pass = some p → ∀ jobs, p.jobs = some jobs → ∀ job ∈ jobs,
          ∀ j, w.store.liveJob job.id = some j → j.enabled = true) ∧
        w.store.off 5 = true ∧
        (∃ x, w.store.position 5 = some x ∧ x.2.disabledSince.isSome = true) ∧
        ∃ w', w.act utcHost (.reconcileJob (fun _ => 3)) = some w' ∧
          (1, some 3600000000, 3) ∈ insertedRuns w.store w'.store) (by decide +kernel)
  have henabled : w.findsEnabled (.reconcileJob (fun _ => 3)) :=
    fun p job rest hp hjobs => hfinds p hp _ hjobs job List.mem_cons_self
  obtain ⟨hruns, hrecord⟩ := disabled_until_enabled hw henabled hw' hoff
  exact ⟨w, w', hw, hw', hrun, hruns, hrecord ⟨j, c, hposition⟩⟩

end World

end Locron
