import Locron.Lib.Fallible
import Locron.Store.State

set_option autoImplicit false

/-! # Job operations

Creating, updating, importing, enabling and removing jobs. A job is addressed by the identity of the
live row that the given reference resolves to.
-/

namespace Locron

structure CreateJob where
  id : Uuid
  name : String
  description : Option String
  tags : String
  enabled : Bool
  definition : Snapshot
  cursor : Int
  now : Int

structure UpdateJob where
  id : Uuid
  expectedRevision : Nat
  name : String
  description : Option String
  tags : String
  enabled : Bool
  definition : Snapshot
  cursor : Int
  now : Int

structure JobRecord where
  id : Uuid
  name : String
  description : Option String
  tags : String
  enabled : Bool
  currentRevision : Nat
  definition : Snapshot
  cursor : Int
  disabledSince : Option Int

/-- What the source identity and name of an imported job resolved to while planning. -/
structure ImportResolution where
  sourceId : Uuid
  sourceName : String
  expectedIdDestination : Option Uuid
  expectedNameDestination : Option Uuid

/-- A planned action of an import. -/
inductive ImportJob where
  | create (resolution : ImportResolution) (job : CreateJob)
  | update (resolution : ImportResolution) (job : UpdateJob)
  | verify (resolution : ImportResolution) (job : UpdateJob)

def ImportJob.resolution : ImportJob → ImportResolution
  | .create r _ => r
  | .update r _ => r
  | .verify r _ => r

/-- The settings of an import are those that admission and retention read. -/
structure ImportBatch where
  jobs : List ImportJob
  settings : Settings
  now : Int

namespace Store

def liveNameExists (s : Store) (name : String) : Bool :=
  s.jobs.exist (fun j => j.name = name && j.removedAt.isNone)

def otherLiveNameExists (s : Store) (name : String) (id : Uuid) : Bool :=
  s.jobs.exist (fun j => j.name = name && j.id != id && j.removedAt.isNone)

/-- The live job, joined with its current revision and cursor. -/
def readJob (s : Store) (id : Uuid) : Option JobRecord :=
  match s.liveJob id with
  | none => none
  | some j =>
    match s.revisions.find (id, j.currentRevision), s.cursors.find (id, j.currentRevision) with
    | some r, some c => some {
        id := id
        name := j.name
        description := j.description
        tags := j.tags
        enabled := j.enabled
        currentRevision := j.currentRevision
        definition := r.definition
        cursor := c.cursor
        disabledSince := c.disabledSince }
    | _, _ => none

/-- The live jobs in the order of their names, the enabled ones or all. -/
def listJobs (s : Store) (all : Bool) : List JobRecord :=
  ((s.jobs.rows.filter (fun j => j.removedAt.isNone && (all || j.enabled))).filterMap
    (fun j => s.readJob j.id)).insertionSort (fun a b => a.name ≤ b.name)

def insertRevision (s : Store) (job : Uuid) (revision : Nat) (definition : Snapshot) (cursor : Int)
    (enabled : Bool) (now : Int) (origin : RevisionOrigin) : Except StoreError Store :=
  match s.revisions.insert ⟨job, revision, definition, now, origin⟩,
      s.cursors.insert ⟨job, revision, cursor, false, now, if enabled then none else some now⟩ with
  | some revisions, some cursors => .ok { s with revisions := revisions, cursors := cursors }
  | _, _ => .error (.sqlite "UNIQUE constraint failed: job_revisions.job_id")

def insertJob (s : Store) (job : CreateJob) (now : Int) (origin : RevisionOrigin) :
    Except StoreError Store :=
  match s.jobs.insert ⟨job.id, job.name, job.description, job.tags, job.enabled, now, now, none, 1⟩
    with
  | none => .error (.sqlite "UNIQUE constraint failed: jobs.id")
  | some jobs => { s with jobs := jobs }.insertRevision job.id 1 job.definition job.cursor
      job.enabled now origin

def reviseJob (s : Store) (job : UpdateJob) (now : Int) (origin : RevisionOrigin) :
    Except StoreError Store :=
  (s.updateJobs (fun j => j.id = job.id)
      (fun j => { j with
        name := job.name
        description := job.description
        tags := job.tags
        enabled := job.enabled
        updatedAt := now
        currentRevision := job.expectedRevision + 1 }) (fun _ => rfl)).insertRevision job.id
    (job.expectedRevision + 1) job.definition job.cursor job.enabled now origin

def createJob (s : Store) (job : CreateJob) : Except StoreError Store :=
  if (s.jobs.find job.id).isSome || s.liveNameExists job.name then
    .error (.conflict s!"job identity or live name already exists: {job.name}")
  else do
    let s ← s.insertJob job job.now .add
    .ok (s.event job.now "job_added" (some job.id) none "\x7b\x7d")

/-- Updates a job at its expected revision. The cursor is the caller's. -/
def updateJob (s : Store) (job : UpdateJob) : Except StoreError Store :=
  match s.liveJob job.id with
  | none => .error (.notFound (toString job.id))
  | some j =>
    if j.currentRevision ≠ job.expectedRevision then
      .error (.conflict
        s!"expected revision {job.expectedRevision}, found {j.currentRevision}")
    else if s.otherLiveNameExists job.name job.id then
      .error (.conflict s!"job live name already exists: {job.name}")
    else do
      let s ← s.reviseJob job job.now .update
      .ok (s.event job.now "job_updated" (some job.id) none
        s!"\x7b\"revision\":{j.currentRevision + 1}\x7d")

/-! ## Import -/

/-- The source still resolves as it did while planning. -/
def validateImportResolution (s : Store) (r : ImportResolution) : Except StoreError Unit :=
  let byId := (s.liveJob r.sourceId).map (fun j => j.id)
  let byName := (s.jobs.rows.find? (fun j => j.name = r.sourceName && j.removedAt.isNone)).map
    (fun j => j.id)
  if byId ≠ r.expectedIdDestination ∨ byName ≠ r.expectedNameDestination then
    .error (.conflict s!"import source mapping changed for {r.sourceName}")
  else .ok ()

def importJobMatches (current : JobRecord) (expected : UpdateJob) : Bool :=
  current.id = expected.id && current.currentRevision = expected.expectedRevision
  && current.name = expected.name && current.description = expected.description
  && current.tags = expected.tags && current.enabled = expected.enabled
  && current.definition = expected.definition && current.cursor = expected.cursor

/-- The checks shared by updates and verifications. -/
def validateImportUpdate (s : Store) (job : UpdateJob) : Except StoreError JobRecord :=
  match s.readJob job.id with
  | none => .error (.notFound (toString job.id))
  | some current =>
    if current.currentRevision ≠ job.expectedRevision then
      .error (.conflict
        s!"expected revision {job.expectedRevision}, found {current.currentRevision}")
    else if s.otherLiveNameExists job.name job.id then
      .error (.conflict s!"import update name collision for {job.name}")
    else .ok current

def validateImportJob (s : Store) (job : ImportJob) : Except StoreError Unit :=
  match s.validateImportResolution job.resolution with
  | .error e => .error e
  | .ok () =>
    match job with
    | .create _ job =>
      if (s.jobs.find job.id).isSome || s.liveNameExists job.name then
        .error (.conflict s!"import create identity collision for {job.name}")
      else .ok ()
    | .update _ job => (s.validateImportUpdate job).map (fun _ => ())
    | .verify r job =>
      match s.validateImportUpdate job with
      | .error e => .error e
      | .ok current =>
        if importJobMatches current job then .ok ()
        else .error (.conflict s!"import no-op destination changed for {r.sourceName}")

def validateImportJobs (s : Store) : List ImportJob → Except StoreError Unit
  | [] => .ok ()
  | job :: jobs =>
    match s.validateImportJob job with
    | .error e => .error e
    | .ok () => s.validateImportJobs jobs

def validateImportSettings (settings : Settings) : Except StoreError Unit :=
  if ¬ (1 ≤ settings.globalConcurrency ∧ settings.globalConcurrency ≤ 64) then
    .error (.conflict "import global_concurrency must be from 1 through 64")
  else if settings.runRetentionCount < 0 ∨ ∃ age ∈ settings.runRetentionAge, age < 0 then
    .error (.conflict "import retention and output limits must be non-negative")
  else .ok ()

/-- A planned job name is taken by a live job when it is written: the unique index on live names. -/
def applyImportJob (s : Store) (now : Int) : ImportJob → Except StoreError Store
  | .create _ job =>
    if s.liveNameExists job.name then .error (.sqlite "UNIQUE constraint failed: jobs.name")
    else do
      let s ← s.insertJob job now .import
      .ok (s.event now "job_imported" (some job.id) none "\x7b\"action\":\"create\"\x7d")
  | .update _ job =>
    if s.otherLiveNameExists job.name job.id then
      .error (.sqlite "UNIQUE constraint failed: jobs.name")
    else do
      let s ← s.reviseJob job now .import
      .ok (s.event now "job_imported" (some job.id) none "\x7b\"action\":\"update\"\x7d")
  | .verify _ _ => .ok s

def applyImportJobs (s : Store) (now : Int) : List ImportJob → Except StoreError Store
  | [] => .ok s
  | job :: jobs =>
    match s.applyImportJob now job with
    | .error e => .error e
    | .ok s => s.applyImportJobs now jobs

/-- Applies a planned import as one transaction: all checks come before the first write. -/
def applyImport (s : Store) (batch : ImportBatch) : Except StoreError Store :=
  match validateImportSettings batch.settings with
  | .error e => .error e
  | .ok () =>
    match s.validateImportJobs batch.jobs with
    | .error e => .error e
    | .ok () =>
      match s.applyImportJobs batch.now batch.jobs with
      | .error e => .error e
      | .ok s => .ok ({ s with settings := batch.settings }.event batch.now "import_applied"
          none none "\x7b\x7d")

/-! ## Enabling and removing -/

/-- Sets the enabled flag; the cursor remembers since when the job has been disabled. -/
def setEnabled (s : Store) (id : Uuid) (enabled : Bool) (now : Int) : Except StoreError Store :=
  match s.liveJob id with
  | none => .error (.notFound (toString id))
  | some j =>
    let s := s.updateJobs (fun r => r.id = id)
      (fun r => { r with enabled := enabled, updatedAt := now }) (fun _ => rfl)
    let current := fun c : CursorRow => c.jobId = id && c.revision = j.currentRevision
    if enabled && !j.enabled then
      .ok (s.updateCursors current
        (fun c => { c with disabledSince := c.disabledSince <|> some c.cursor }) (fun _ => rfl))
    else if !enabled && j.enabled then
      .ok (s.updateCursors current
        (fun c => { c with disabledSince := c.disabledSince <|> some now }) (fun _ => rfl))
    else .ok s

def removeJob (s : Store) (id : Uuid) (now : Int) : Except StoreError Store :=
  match s.readJob id with
  | none => .error (.notFound (toString id))
  | some _ =>
    .ok (s.updateJobs (fun j => j.id = id && j.removedAt.isNone)
      (fun j => { j with enabled := false, removedAt := some now, updatedAt := now })
      (fun j => Eq.refl j.id))

def setGlobalConcurrency (s : Store) (value : Int) : Except StoreError Store :=
  if 1 ≤ value ∧ value ≤ 64 then
    .ok { s with settings := { s.settings with globalConcurrency := value } }
  else .error (.conflict "global_concurrency must be from 1 through 64")

/-- Sets the number of runs that retention keeps. -/
def setRunRetentionCount (s : Store) (value : Int) : Except StoreError Store :=
  if 0 ≤ value then .ok { s with settings := { s.settings with runRetentionCount := value } }
  else .error (.conflict "run_retention_count must be non-negative")

/-- Sets the age from which retention deletes runs; `none` turns it off. -/
def setRunRetentionAge (s : Store) (value : Option Int) : Except StoreError Store :=
  if ∀ age ∈ value, 0 ≤ age then
    .ok { s with settings := { s.settings with runRetentionAge := value } }
  else .error (.conflict "run_retention_age_us must be non-negative")

end Store

end Locron
