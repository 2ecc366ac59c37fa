import Locron.Store.Requeue

set_option autoImplicit false

/-! # Edits of definitions

What creating, updating, importing, enabling and removing jobs does to the tables of jobs, revisions
and cursors. An update and each update of an import add the next revision, with the cursor that the
caller gives, to the live job at the expected revision.
-/

namespace Locron

namespace JobRow

def new (job : CreateJob) (now : Int) : JobRow :=
  ⟨job.id, job.name, job.description, job.tags, job.enabled, now, now, none, 1⟩

def revise (job : UpdateJob) (now : Int) (j : JobRow) : JobRow :=
  { j with
    name := job.name
    description := job.description
    tags := job.tags
    enabled := job.enabled
    updatedAt := now
    currentRevision := job.expectedRevision + 1 }

end JobRow

def CursorRow.new (job : Uuid) (revision : Nat) (cursor : Int) (enabled : Bool) (now : Int) :
    CursorRow :=
  ⟨job, revision, cursor, false, now, if enabled then none else some now⟩

/-- The cursor remembers since when its job has been disabled; an earlier time stands. -/
def CursorRow.remember (enabled : Bool) (now : Int) (c : CursorRow) : CursorRow :=
  { c with disabledSince := c.disabledSince <|> some (if enabled then c.cursor else now) }

namespace Store

/-! ## New revisions -/

structure AddsRevision (job : Uuid) (revision : Nat) (definition : Snapshot) (cursor : Int)
    (enabled : Bool) (now : Int) (s s' : Store) : Prop where
  runs : s'.runs = s.runs
  nextQueueSequence : s'.nextQueueSequence = s.nextQueueSequence
  fresh : s.revisions.find (job, revision) = none ∧ s.cursors.find (job, revision) = none
  revisions : ∃ origin, ∀ key, s'.revisions.find key
    = if (job, revision) = key then some ⟨job, revision, definition, now, origin⟩
      else s.revisions.find key
  cursors : ∀ key, s'.cursors.find key
    = if (job, revision) = key then some (.new job revision cursor enabled now)
      else s.cursors.find key

variable {s s' : Store} {now : Int} {origin : RevisionOrigin} {enabled : Bool}

theorem insertRevision_ok {job : Uuid} {revision : Nat} {definition : Snapshot} {cursor : Int}
    (h : s.insertRevision job revision definition cursor enabled now origin = .ok s') :
    AddsRevision job revision definition cursor enabled now s s' ∧ s'.jobs = s.jobs := by
  unfold insertRevision at h
  split at h
  · next revisions cursors hrevisions hcursors =>
    cases h
    exact ⟨⟨rfl, rfl, ⟨(Table.insert_eq_some hrevisions).1, (Table.insert_eq_some hcursors).1⟩,
      ⟨origin, Table.find_insert hrevisions⟩, Table.find_insert hcursors⟩, rfl⟩
  · cases h

structure Created (job : CreateJob) (now : Int) (s s' : Store) : Prop extends
    AddsRevision job.id 1 job.definition job.cursor job.enabled now s s' where
  unknown : s.jobs.find job.id = none
  jobs : ∀ id, s'.jobs.find id = if job.id = id then some (.new job now) else s.jobs.find id

theorem insertJob_ok {job : CreateJob}
    (h : s.insertJob job now origin = .ok s') : Created job now s s' := by
  unfold insertJob at h
  split at h
  · cases h
  next jobs hjobs =>
  obtain ⟨hadds, hsame⟩ := insertRevision_ok h
  refine ⟨⟨hadds.runs, hadds.nextQueueSequence, hadds.fresh, hadds.revisions, hadds.cursors⟩,
    (Table.insert_eq_some hjobs).1, ?_⟩
  intro id
  rw [hsame]
  exact Table.find_insert hjobs id

structure Revised (job : UpdateJob) (now : Int) (s s' : Store) : Prop extends
    AddsRevision job.id (job.expectedRevision + 1) job.definition job.cursor job.enabled now s s'
    where
  live : ∃ j, s.liveJob job.id = some j ∧ j.currentRevision = job.expectedRevision
  jobs : ∀ id, s'.jobs.find id
    = (s.jobs.find id).map (fun j => if j.id = job.id then j.revise job now else j)

variable {job : UpdateJob}

theorem find_jobs_reviseJob (h : s.reviseJob job now origin = .ok s') (id : Uuid) :
    s'.jobs.find id = (s.jobs.find id).map
      (fun j => if j.id = job.id then j.revise job now else j) := by
  unfold reviseJob at h
  rw [(insertRevision_ok h).2]
  have hfind := @Table.find_update _ _ _ _ (fun j : JobRow => decide (j.id = job.id))
    (JobRow.revise job now) (fun _ => rfl) s.jobs id
  simp only [decide_eq_true_eq] at hfind
  exact hfind

theorem reviseJob_ok
    (hlive : ∃ j, s.liveJob job.id = some j ∧ j.currentRevision = job.expectedRevision)
    (h : s.reviseJob job now origin = .ok s') : Revised job now s s' := by
  have hjobs := find_jobs_reviseJob h
  unfold reviseJob at h
  obtain ⟨hadds, -⟩ := insertRevision_ok h
  exact ⟨⟨hadds.runs, hadds.nextQueueSequence, hadds.fresh, hadds.revisions, hadds.cursors⟩, hlive,
    hjobs⟩

/-! ## Creating, updating and importing -/

inductive EditStep (s s' : Store) : Prop
  | create (job : CreateJob) (now : Int) (h : Created job now s s') : EditStep s s'
  | revise (job : UpdateJob) (now : Int) (h : Revised job now s s') : EditStep s s'

/-- Some columns of the definitions apart, the states agree. -/
structure SameTables (s s' : Store) : Prop extends KeepsDefinitions s s' where
  runs : s'.runs = s.runs
  nextQueueSequence : s'.nextQueueSequence = s.nextQueueSequence

theorem SameTables.refl (s : Store) : SameTables s s := ⟨.refl s, rfl, rfl⟩

theorem sameTables_event (s : Store) (at_ : Int) (kind : String) (job run : Option Uuid)
    (details : String) : SameTables s (s.event at_ kind job run details) :=
  ⟨⟨rfl, rfl, rfl⟩, rfl, rfl⟩

variable {s₁ : Store}

theorem AddsRevision.congr {job : Uuid} {revision : Nat} {definition : Snapshot} {cursor : Int}
    (h : AddsRevision job revision definition cursor enabled now s s₁) (hsame : SameTables s₁ s') :
    AddsRevision job revision definition cursor enabled now s s' := by
  obtain ⟨origin, hrevisions⟩ := h.revisions
  refine ⟨hsame.runs.trans h.runs, hsame.nextQueueSequence.trans h.nextQueueSequence, h.fresh,
    ⟨origin, ?_⟩, ?_⟩
  · rw [hsame.revisions]
    exact hrevisions
  · rw [hsame.cursors]
    exact h.cursors

theorem Created.congr {job : CreateJob} (h : Created job now s s₁)
    (hsame : SameTables s₁ s') : Created job now s s' := by
  refine ⟨h.toAddsRevision.congr hsame, h.unknown, ?_⟩
  rw [hsame.jobs]
  exact h.jobs

theorem Revised.congr (h : Revised job now s s₁)
    (hsame : SameTables s₁ s') : Revised job now s s' := by
  refine ⟨h.toAddsRevision.congr hsame, h.live, ?_⟩
  rw [hsame.jobs]
  exact h.jobs

theorem createJob_ok {job : CreateJob} (h : s.createJob job = .ok s') :
    Created job job.now s s' := by
  unfold createJob at h
  obtain ⟨-, h⟩ := Except.guard_eq_ok.mp h
  obtain ⟨s₁, hs₁, h⟩ := Except.bind_eq_ok.mp h
  cases h
  exact (insertJob_ok hs₁).congr (sameTables_event ..)

theorem updateJob_ok (h : s.updateJob job = .ok s') :
    Revised job job.now s s' := by
  unfold updateJob at h
  split at h
  · cases h
  next j hj =>
  obtain ⟨hrevision, h⟩ := Except.guard_eq_ok.mp h
  obtain ⟨-, h⟩ := Except.guard_eq_ok.mp h
  obtain ⟨s₁, hs₁, h⟩ := Except.bind_eq_ok.mp h
  cases h
  exact (reviseJob_ok ⟨j, hj, not_not.mp hrevision⟩ hs₁).congr (sameTables_event ..)

section Import

variable {s s' : Store} {now : Int}

theorem of_readJob {id : Uuid} {record : JobRecord} (h : s.readJob id = some record) :
    ∃ j r c, s.liveJob id = some j ∧ s.revisions.find (id, j.currentRevision) = some r ∧
      s.cursors.find (id, j.currentRevision) = some c ∧
      record = ⟨id, j.name, j.description, j.tags, j.enabled, j.currentRevision, r.definition,
        c.cursor, c.disabledSince⟩ := by
  unfold readJob at h
  split at h
  · cases h
  next j hj =>
  split at h
  · next r c hr hc =>
    cases h
    exact ⟨j, r, c, hj, hr, hc, rfl⟩
  · cases h

theorem live_of_validateImportUpdate {current : JobRecord}
    (h : s.validateImportUpdate job = .ok current) :
    ∃ j, s.liveJob job.id = some j ∧ j.currentRevision = job.expectedRevision := by
  unfold validateImportUpdate at h
  split at h
  · cases h
  next record hrecord =>
  obtain ⟨hrevision, -⟩ := Except.guard_eq_ok.mp h
  obtain ⟨j, r, c, hj, -, -, rfl⟩ := of_readJob hrecord
  exact ⟨j, hj, not_not.mp hrevision⟩

theorem live_of_validateImportJob {resolution : ImportResolution}
    (h : s.validateImportJob (.update resolution job) = .ok ()) :
    ∃ j, s.liveJob job.id = some j ∧ j.currentRevision = job.expectedRevision := by
  unfold validateImportJob at h
  split at h
  · cases h
  · obtain ⟨current, hcurrent, -⟩ := Except.map_eq_ok.mp h
    exact live_of_validateImportUpdate hcurrent

theorem of_validateImportJobs {jobs : List ImportJob} (h : s.validateImportJobs jobs = .ok ()) :
    ∀ job ∈ jobs, s.validateImportJob job = .ok () := by
  induction jobs with
  | nil => simp
  | cons x jobs ih =>
    unfold validateImportJobs at h
    split at h
    · cases h
    next hx =>
    intro job hjob
    rcases List.mem_cons.mp hjob with rfl | hjob
    · exact hx
    · exact ih h job hjob

/-- A job that was live before the import still is, unless the import has revised it. -/
def Untouched (s₀ s : Store) : Prop :=
  ∀ id j, s₀.liveJob id = some j →
    s.liveJob id = some j ∨ (s.revisions.find (id, j.currentRevision + 1)).isSome = true

variable {s₀ : Store}

theorem Untouched.create {job : CreateJob} (h : Untouched s₀ s)
    (hstep : Created job now s s') : Untouched s₀ s' := by
  intro id j hj
  obtain ⟨origin, hrevisions⟩ := hstep.revisions
  rcases h id j hj with hlive | hsome
  · left
    have hne : job.id ≠ id := by
      rintro rfl
      unfold liveJob at hlive
      rw [hstep.unknown] at hlive
      cases hlive
    unfold liveJob at hlive ⊢
    rw [hstep.jobs, if_neg hne]
    exact hlive
  · right
    rw [hrevisions]
    split
    · rfl
    · exact hsome

theorem Untouched.revise (h : Untouched s₀ s)
    (hlive₀ : ∃ j, s₀.liveJob job.id = some j ∧ j.currentRevision = job.expectedRevision)
    (hstep : Revised job now s s') : Untouched s₀ s' := by
  intro id j hj
  obtain ⟨origin, hrevisions⟩ := hstep.revisions
  by_cases hid : job.id = id
  · subst hid
    obtain ⟨j₀, hj₀, hrevision⟩ := hlive₀
    obtain rfl : j₀ = j := Option.some.inj (hj₀.symm.trans hj)
    right
    rw [hrevisions, if_pos (by rw [hrevision])]
    rfl
  · rcases h id j hj with hlive | hsome
    · left
      unfold liveJob at hlive ⊢
      obtain ⟨hfind, hnone⟩ := Option.filter_eq_some_iff.mp hlive
      have hne : ¬ j.id = job.id := fun heq => hid (heq.symm.trans (Table.key_of_find hfind))
      rw [hstep.jobs, hfind, Option.map_some, if_neg hne]
      exact Option.filter_eq_some_iff.mpr ⟨rfl, hnone⟩
    · right
      rw [hrevisions]
      split
      · rfl
      · exact hsome

/-- **An import is a sequence of edits**: what was checked before the first write still holds at
each, since a second revision of the same job would not be new. -/
theorem applyImportJobs_induction {jobs : List ImportJob} {motive : Store → Prop}
    (hvalid : ∀ job ∈ jobs, s₀.validateImportJob job = .ok ())
    (hcreate : ∀ resolution job t t', .create resolution job ∈ jobs → motive t →
      Created job now t t' → motive t')
    (hrevise : ∀ resolution job j t t', .update resolution job ∈ jobs →
      s₀.liveJob job.id = some j → t.liveJob job.id = some j → motive t →
      Revised job now t t' → motive t')
    (huntouched : Untouched s₀ s) (hs : motive s) (h : s.applyImportJobs now jobs = .ok s') :
    motive s' := by
  induction jobs generalizing s with
  | nil =>
    cases h
    exact hs
  | cons x jobs ih =>
    unfold applyImportJobs at h
    split at h
    · cases h
    next s₁ hx =>
    have ih' := fun hunt hm => ih (fun job hjob => hvalid job (List.mem_cons_of_mem x hjob))
      (fun resolution job t t' hjob => hcreate resolution job t t' (List.mem_cons_of_mem x hjob))
      (fun resolution job j t t' hjob =>
        hrevise resolution job j t t' (List.mem_cons_of_mem x hjob)) hunt hm h
    cases x with
    | create resolution job =>
      obtain ⟨-, hx⟩ := Except.guard_eq_ok.mp hx
      obtain ⟨s₂, hs₂, hx⟩ := Except.bind_eq_ok.mp hx
      have hcreated : Created job now s s₁ := by
        cases hx
        exact (insertJob_ok hs₂).congr (sameTables_event ..)
      exact ih' (huntouched.create hcreated)
        (hcreate resolution job s s₁ (List.mem_cons_self ..) hs hcreated)
    | update resolution job =>
      obtain ⟨-, hx⟩ := Except.guard_eq_ok.mp hx
      obtain ⟨s₂, hs₂, hx⟩ := Except.bind_eq_ok.mp hx
      obtain ⟨j, hj, hrevision⟩ :=
        live_of_validateImportJob (hvalid (.update resolution job) (List.mem_cons_self ..))
      have hlive : s.liveJob job.id = some j := by
        rcases huntouched job.id j hj with hlive | hsome
        · exact hlive
        have hfresh := (insertRevision_ok hs₂).1.fresh.1
        have hsame : s.revisions.find (job.id, job.expectedRevision + 1) = none := hfresh
        rw [hrevision, hsame] at hsome
        cases hsome
      have hrevised : Revised job now s s₁ := by
        cases hx
        exact (reviseJob_ok ⟨j, hlive, hrevision⟩ hs₂).congr (sameTables_event ..)
      exact ih' (huntouched.revise ⟨j, hj, hrevision⟩ hrevised)
        (hrevise resolution job j s s₁ (List.mem_cons_self ..) hj hlive hs hrevised)
    | verify resolution job =>
      cases hx
      exact ih' huntouched hs

theorem applyImport_induction {batch : ImportBatch} {motive : Store → Prop}
    (hcreate : ∀ resolution job t t', .create resolution job ∈ batch.jobs → motive t →
      Created job batch.now t t' → motive t')
    (hrevise : ∀ resolution job j t t', .update resolution job ∈ batch.jobs →
      s.liveJob job.id = some j → t.liveJob job.id = some j → motive t →
      Revised job batch.now t t' → motive t')
    (hs : motive s) (h : s.applyImport batch = .ok s') : ∃ s₁, motive s₁ ∧ SameTables s₁ s' := by
  unfold applyImport at h
  split at h
  · cases h
  split at h
  · cases h
  next hvalid =>
  split at h
  · cases h
  next s₁ hs₁ =>
  cases h
  exact ⟨s₁, applyImportJobs_induction (of_validateImportJobs hvalid) hcreate hrevise
    (fun _ _ hj => Or.inl hj) hs hs₁, ⟨⟨rfl, rfl, rfl⟩, rfl, rfl⟩⟩

theorem applyImport_ok {batch : ImportBatch} (h : s.applyImport batch = .ok s') :
    ∃ s₁, Relation.ReflTransGen EditStep s s₁ ∧ SameTables s₁ s' :=
  applyImport_induction (motive := Relation.ReflTransGen EditStep s)
    (fun _ job _ _ _ ht hcreated => ht.tail (.create job batch.now hcreated))
    (fun _ job _ _ _ _ _ _ ht hrevised => ht.tail (.revise job batch.now hrevised)) .refl h

end Import

/-! ## Enabling and removing -/

/-- Setting the flag finds a live job, and concerns its row and the cursor of its revision. -/
theorem setEnabled_ok {id : Uuid} (h : s.setEnabled id enabled now = .ok s') :
    ∃ j, s.liveJob id = some j ∧ s'.runs = s.runs ∧
      s'.nextQueueSequence = s.nextQueueSequence ∧ s'.revisions = s.revisions ∧
      (∀ x, s'.jobs.find x = (s.jobs.find x).map (fun r => if r.id = id then
        { r with enabled := enabled, updatedAt := now } else r)) ∧
      ∀ key, s'.cursors.find key = (s.cursors.find key).map (fun c =>
        if key = (id, j.currentRevision) ∧ enabled ≠ j.enabled then c.remember enabled now
        else c) := by
  unfold setEnabled at h
  split at h
  · cases h
  next j hj =>
  refine ⟨j, hj, ?_⟩
  dsimp only at h
  have hjobs : ∀ x, (s.updateJobs (fun r => r.id = id)
      (fun r => { r with enabled := enabled, updatedAt := now }) (fun _ => rfl)).jobs.find x
      = (s.jobs.find x).map (fun r => if r.id = id then
        { r with enabled := enabled, updatedAt := now } else r) := by
    intro x
    simp only [updateJobs, Table.find_update, decide_eq_true_eq]
  have hcursors : ∀ (f : CursorRow → CursorRow) (hf : ∀ c, (f c).key = c.key) key,
      (s.cursors.update (fun c => c.jobId = id && c.revision = j.currentRevision) f hf).find key
        = (s.cursors.find key).map (fun c => if key = (id, j.currentRevision) then f c
          else c) := by
    intro f hf key
    rw [Table.find_update]
    cases hc : s.cursors.find key with
    | none => rfl
    | some c =>
      obtain rfl : c.key = key := Table.key_of_find hc
      simp [CursorRow.key, Prod.ext_iff]
  split at h
  · next hflag =>
    simp only [Bool.and_eq_true, Bool.not_eq_true'] at hflag
    obtain ⟨rfl, hwas⟩ := hflag
    cases h
    refine ⟨rfl, rfl, rfl, hjobs, ?_⟩
    intro key
    have hfind := hcursors (CursorRow.remember true now) (fun _ => rfl) key
    simp only [hwas, ne_eq, Bool.true_eq_false, not_false_eq_true, and_true]
    exact hfind
  · next hnot =>
    split at h
    · next hflag =>
      simp only [Bool.and_eq_true, Bool.not_eq_true'] at hflag
      obtain ⟨rfl, hwas⟩ := hflag
      cases h
      refine ⟨rfl, rfl, rfl, hjobs, ?_⟩
      intro key
      have hfind := hcursors (CursorRow.remember false now) (fun _ => rfl) key
      simp only [hwas, ne_eq, Bool.false_eq_true, not_false_eq_true, and_true]
      exact hfind
    · next hnot' =>
      cases h
      have hsame : enabled = j.enabled := by
        revert hnot hnot'
        cases enabled <;> cases j.enabled <;> simp
      refine ⟨rfl, rfl, rfl, hjobs, ?_⟩
      intro key
      simp [hsame, updateJobs]

theorem removeJob_ok {id : Uuid} (h : s.removeJob id now = .ok s') :
    s'.runs = s.runs ∧ s'.nextQueueSequence = s.nextQueueSequence ∧
      s'.revisions = s.revisions ∧ s'.cursors = s.cursors ∧
      ∀ x, s'.jobs.find x = (s.jobs.find x).map (fun j => if j.id = id ∧ j.removedAt = none then
        { j with enabled := false, removedAt := some now, updatedAt := now } else j) := by
  unfold removeJob at h
  split at h
  · cases h
  cases h
  refine ⟨rfl, rfl, rfl, rfl, ?_⟩
  intro x
  simp only [updateJobs, Table.find_update, Bool.and_eq_true, decide_eq_true_eq,
    Option.isNone_iff_eq_none]

end Store

end Locron
