import Locron.Daemon.Pass
import Locron.Lib.Runs
import Locron.Store.Positions

set_option autoImplicit false

/-! # The daemon among editors

The daemon reconciles while other processes edit the same database. A pass lists the jobs in one
transaction and materializes each in a later one; an editor reads a job in one transaction and
writes it in a later one. Every transaction is one action of the machine below, so its runs are all
interleavings. A history records what the properties are about; no component reads it.
-/

namespace Locron

/-! ## Editors -/

/-- A validated and normalized request to change a job. -/
structure Edit where
  name : String
  description : Option String
  tags : String
  enabled : Bool
  definition : JobDefinition
  now : Int

namespace JobRecord

/-- Nothing would change. -/
def sameAs (current : JobRecord) (d : JobDefinition) (edit : Edit) : Bool :=
  current.name = edit.name && current.description = edit.description && current.tags = edit.tags
  && current.enabled = edit.enabled && d = edit.definition

/-- The update written from what was read: the cursor is the one that was read, unless the schedule
changes. -/
def planned (current : JobRecord) (d : JobDefinition) (edit : Edit) : UpdateJob where
  id := current.id
  expectedRevision := current.currentRevision
  name := edit.name
  description := edit.description
  tags := edit.tags
  enabled := edit.enabled
  definition := .job edit.definition
  cursor := if d.schedule ≠ edit.definition.schedule then edit.now else current.cursor
  now := edit.now

/-- A direct update must change something. -/
def planUpdate (current : JobRecord) (edit : Edit) : Option UpdateJob :=
  match current.definition.definition with
  | none => none
  | some d => if current.sameAs d edit then none else some (current.planned d edit)

end JobRecord

/-- A job of an imported document: a new one, or one for the destination that was read at
`index`. -/
inductive ImportSource where
  | create (resolution : ImportResolution) (job : CreateJob)
  | destination (resolution : ImportResolution) (index : Nat) (edit : Edit)

/-- The planned action for an imported job; a destination that is already as wanted is only
verified. -/
def ImportSource.plan (held : List JobRecord) : ImportSource → Option ImportJob
  | .create resolution job => some (.create resolution job)
  | .destination resolution index edit =>
    match held[index]? with
    | none => none
    | some current =>
      match current.definition.definition with
      | none => none
      | some d => some (if current.sameAs d edit then .verify resolution (current.planned d edit)
          else .update resolution (current.planned d edit))

/-! ## The machine -/

/-- What happened so far. -/
structure History where
  /-- job, nominal time and identity of every inserted run that is not manual -/
  materialized : List (Uuid × Option Int × Uuid)
  /-- a job and a range `(from, to]` of time during which it was disabled -/
  outages : List (Uuid × Int × Int)
  /-- when the first pass of the running daemon process began -/
  firstPass : Option Int

structure World where
  store : Store
  clock : ClockSample
  /-- what editors have read -/
  held : List JobRecord
  adapter : Adapter
  pass : Option Pass
  history : History

inductive Action where
  | advance (clock : ClockSample)
  | read (job : Uuid)
  | update (index : Nat) (edit : Edit)
  | importJobs (sources : List ImportSource) (settings : Settings) (now : Int)
  | other (op : Op)
  | restart
  | beginPass
  | listJobs
  | reconcileJob (ids : Nat → Uuid)
  | failPass
  | endPass

/-- The actions of editors and of other components, in contrast to those of the daemon's pass. -/
def Action.ofEditor : Action → Bool
  | .read _ | .update _ _ | .importJobs _ _ _ | .other _ => true
  | _ => false

namespace World

def initial (clock : ClockSample) : World :=
  ⟨.initial, clock, [], .new, none, ⟨[], [], none⟩⟩

/-- The state after a transaction, if it commits. -/
def commit (w : World) : Except StoreError Store → Option World
  | .error _ => none
  | .ok s => some { w with store := s }

def writeUpdate (w : World) (index : Nat) (edit : Edit) : Option World :=
  match (w.held[index]?).bind (fun current => current.planUpdate edit) with
  | none => none
  | some job => w.commit (w.store.updateJob job)

def writeImport (w : World) (sources : List ImportSource) (settings : Settings) (now : Int) :
    Option World :=
  match sources.mapM (fun source => source.plan w.held) with
  | none => none
  | some jobs => w.commit (w.store.applyImport ⟨jobs, settings, now⟩)

/-- Any other operation, of whatever component. -/
def writeOther (w : World) (op : Op) : Option World :=
  if op.repositions then none else w.commit (w.store.apply op)

/-- The daemon samples its clocks. -/
def beginPass (w : World) : Option World :=
  match w.pass with
  | some _ => none
  | none => some { w with pass := some (w.adapter.beginPass w.clock) }

def listJobs (w : World) : Option World :=
  match w.pass with
  | some ⟨sample, startup, discontinuity, none⟩ =>
    some { w with pass := some ⟨sample, startup, discontinuity, some (w.store.listJobs false)⟩ }
  | _ => none

/-- The pass handles the next job; an error ends it. -/
def reconcileJob (host : Host) (w : World) (ids : Nat → Uuid) : Option World :=
  match w.pass with
  | some ⟨sample, startup, discontinuity, some (job :: rest)⟩ =>
    match Pass.reconcileJob host ⟨sample, startup, discontinuity, some (job :: rest)⟩ job ids
        w.store with
    | .error _ => some { w with pass := none }
    | .ok (_, s) =>
      some { w with store := s, pass := some ⟨sample, startup, discontinuity, some rest⟩ }
  | _ => none

/-- Another error ends the pass, such as a failure to read the database. -/
def failPass (w : World) : Option World :=
  match w.pass with
  | none => none
  | some _ => some { w with pass := none }

/-- All listed jobs are handled. -/
def endPass (w : World) : Option World :=
  match w.pass with
  | some ⟨sample, startup, discontinuity, some []⟩ =>
    some { w with
      pass := none
      adapter := .afterPass ⟨sample, startup, discontinuity, some []⟩ }
  | _ => none

/-- One transaction of an editor or of the daemon, a step of the clock, or a change in memory. A
transaction that fails changes nothing in the database. -/
def perform (host : Host) (w : World) : Action → Option World
  | .advance clock => some { w with clock := clock }
  | .read job => (w.store.readJob job).map (fun record => { w with held := w.held ++ [record] })
  | .update index edit => w.writeUpdate index edit
  | .importJobs sources settings now => w.writeImport sources settings now
  | .other op => w.writeOther op
  | .restart => some { w with adapter := .new, pass := none }
  | .beginPass => w.beginPass
  | .listJobs => w.listJobs
  | .reconcileJob ids => w.reconcileJob host ids
  | .failPass => w.failPass
  | .endPass => w.endPass

def insertedRuns (s s' : Store) : List (Uuid × Option Int × Uuid) :=
  (s'.runs.rows.filter (fun r => r.trigger != .manual && (s.runs.find r.id).isNone)).map
    (fun r => (r.jobId, r.nominal, r.id))

def disabledJobs (s : Store) : List Uuid :=
  (s.jobs.rows.filter (fun j => !j.enabled && (s.position j.id).isSome)).map (fun j => j.id)

def record (w : World) (a : Action) (w' : World) : History where
  materialized := w.history.materialized ++ insertedRuns w.store w'.store
  outages := match a with
    | .advance clock => w.history.outages ++
        (disabledJobs w.store).map (fun job => (job, w.clock.wall, clock.wall))
    | _ => w.history.outages
  firstPass := match a with
    | .restart => none
    | .beginPass => w.history.firstPass <|> some w.clock.wall
    | _ => w.history.firstPass

def act (host : Host) (w : World) (a : Action) : Option World :=
  (w.perform host a).map (fun w' => { w' with history := w.record a w' })

/-- The updates an action writes, each with the record it was planned from. -/
def plannedUpdates (w : World) : Action → List (JobRecord × UpdateJob)
  | .update index edit =>
    match w.held[index]? with
    | none => []
    | some current => (current.planUpdate edit).toList.map (fun job => (current, job))
  | .importJobs sources _ _ => sources.flatMap (fun source =>
    match source, source.plan w.held with
    | .destination _ index _, some (.update _ job) =>
      (w.held[index]?).toList.map (fun current => (current, job))
    | _, _ => [])
  | _ => []

/-- The states of the runs from an empty database, in which every action meets the condition. -/
def Reaches (host : Host) (allowed : World → Action → Prop) : World → Prop :=
  Runs.Reaches (act host) allowed (fun w => ∃ clock, w = initial clock)

/-! ## What an action commits -/

structure Materializes (host : Host) (w : World) (p : Pass) (job : JobRecord) (s' : Store) : Prop
    where
  pass : w.pass = some p
  next : ∃ rest, p.jobs = some (job :: rest)
  behind : job.cursor < p.sample.wall
  commit : ∃ d r result ids, job.definition.definition = some d ∧
    p.reconciliation host job d = .ok r ∧
    w.store.materializeWithSummaries job.id (p.cursorUpdate job d)
      (scheduledRuns job p.sample.wall ids r.selected) (r.omitted.map OmittedRange.summary)
      p.sample.wall = .ok (result, s')

inductive Commits (host : Host) (w : World) (a : Action) (s' : Store) : Prop
  | nothing (h : s' = w.store) : Commits host w a s'
  | other (op : Op) (ha : a = .other op) (hop : op.repositions = false)
      (h : w.store.apply op = .ok s') : Commits host w a s'
  | update (current : JobRecord) (job : UpdateJob) (hplan : (current, job) ∈ w.plannedUpdates a)
      (h : w.store.updateJob job = .ok s') : Commits host w a s'
  | importJobs (batch : ImportBatch)
    (hplan : ∀ resolution job, .update resolution job ∈ batch.jobs →
      ∃ current, (current, job) ∈ w.plannedUpdates a) (h : w.store.applyImport batch = .ok s') :
      Commits host w a s'
  | reconcile (p : Pass) (job : JobRecord) (ids : Nat → Uuid) (ha : a = .reconcileJob ids)
      (h : Materializes host w p job s') : Commits host w a s'

section Act

variable {host : Host} {w w' : World} {a : Action}

theorem act_eq_some (h : w.act host a = some w') : ∃ w₁, w.perform host a = some w₁ ∧
    w' = { w₁ with history := w.record a w₁ } := by
  obtain ⟨w₁, hw₁, rfl⟩ := Option.map_eq_some_iff.mp h
  exact ⟨w₁, hw₁, rfl⟩

theorem commit_eq_some {result : Except StoreError Store} (h : w.commit result = some w') :
    result = .ok w'.store := by
  cases result with
  | error e => cases h
  | ok s =>
    cases h
    rfl

/-- A transaction of an editor changes nothing outside the database. -/
theorem commit_frame {result : Except StoreError Store} (h : w.commit result = some w') :
    w'.clock = w.clock ∧ w'.pass = w.pass ∧ w'.adapter = w.adapter := by
  cases result with
  | error e => cases h
  | ok s =>
    cases h
    exact ⟨rfl, rfl, rfl⟩

theorem writeUpdate_commits {index : Nat} {edit : Edit} (h : w.writeUpdate index edit = some w') :
    Commits host w (.update index edit) w'.store := by
  unfold writeUpdate at h
  split at h
  · cases h
  next job hjob =>
  obtain ⟨current, hcurrent, hplan⟩ := Option.bind_eq_some_iff.mp hjob
  refine .update current job ?_ (commit_eq_some h)
  simp [plannedUpdates, hcurrent, hplan]

theorem writeImport_commits {sources : List ImportSource} {settings : Settings} {now : Int}
    (h : w.writeImport sources settings now = some w') :
    Commits host w (.importJobs sources settings now) w'.store := by
  unfold writeImport at h
  split at h
  · cases h
  next jobs hjobs =>
  refine .importJobs _ ?_ (commit_eq_some h)
  intro resolution job hjob
  obtain ⟨source, hsource, hplan⟩ := Option.exists_of_mem_mapM hjobs hjob
  cases source with
  | create resolution' job' => cases hplan
  | destination resolution' index edit =>
    have hsome : ∃ current, w.held[index]? = some current := by
      simp only [ImportSource.plan] at hplan
      split at hplan
      · cases hplan
      · next current hcurrent => exact ⟨current, hcurrent⟩
    obtain ⟨current, hcurrent⟩ := hsome
    refine ⟨current, List.mem_flatMap.mpr ⟨_, hsource, ?_⟩⟩
    simp [hplan, hcurrent]

theorem writeOther_commits {op : Op} (h : w.writeOther op = some w') :
    Commits host w (.other op) w'.store := by
  unfold writeOther at h
  split at h
  · cases h
  · next hop => exact .other op rfl (by simpa using hop) (commit_eq_some h)

theorem beginPass_eq_some (h : w.beginPass = some w') :
    w.pass = none ∧ w' = { w with pass := some (w.adapter.beginPass w.clock) } := by
  unfold beginPass at h
  split at h
  · cases h
  next hpass =>
  cases h
  exact ⟨hpass, rfl⟩

theorem listJobs_eq_some (h : w.listJobs = some w') : ∃ p, w.pass = some p ∧ p.jobs = none ∧
    w' = { w with pass := some { p with jobs := some (w.store.listJobs false) } } := by
  unfold listJobs at h
  split at h
  · next hpass =>
    cases h
    exact ⟨_, hpass, rfl, rfl⟩
  · cases h

/-- The next job is handled, or ends the pass. -/
theorem reconcileJob_eq_some {ids : Nat → Uuid} (h : w.reconcileJob host ids = some w') :
    ∃ p job rest, w.pass = some p ∧ p.jobs = some (job :: rest) ∧
      ((∃ e, p.reconcileJob host job ids w.store = .error e ∧ w' = { w with pass := none }) ∨
        ∃ inserted s, p.reconcileJob host job ids w.store = .ok (inserted, s) ∧
          w' = { w with store := s, pass := some { p with jobs := some rest } }) := by
  unfold reconcileJob at h
  split at h
  · next job rest hpass =>
    refine ⟨_, job, rest, hpass, rfl, ?_⟩
    split at h
    · next e he =>
      cases h
      exact Or.inl ⟨e, he, rfl⟩
    next inserted s hs =>
    cases h
    exact Or.inr ⟨inserted, s, hs, rfl⟩
  · cases h

theorem failPass_eq_some (h : w.failPass = some w') : w' = { w with pass := none } := by
  unfold failPass at h
  split at h
  · cases h
  · cases h
    rfl

theorem endPass_eq_some (h : w.endPass = some w') : ∃ p, w.pass = some p ∧ p.jobs = some [] ∧
    w' = { w with pass := none, adapter := .afterPass p } := by
  unfold endPass at h
  split at h
  · next hpass =>
    cases h
    exact ⟨_, hpass, rfl, rfl⟩
  · cases h

theorem reconcileJob_commits {ids : Nat → Uuid} (h : w.reconcileJob host ids = some w') :
    Commits host w (.reconcileJob ids) w'.store := by
  obtain ⟨p, job, rest, hpass, hjobs, ⟨e, -, rfl⟩ | ⟨inserted, s, hs, rfl⟩⟩ :=
    reconcileJob_eq_some h
  · exact .nothing rfl
  obtain ⟨d, hd, ⟨-, rfl⟩ | ⟨hlt, r, result, hr, hmaterialize⟩⟩ := Pass.reconcileJob_ok hs
  · exact .nothing rfl
  · exact .reconcile p job ids rfl
      ⟨hpass, ⟨rest, hjobs⟩, hlt, d, r, result, ids, hd, hr, hmaterialize⟩

/-- **Every action commits nothing or one of four kinds of transactions.** -/
theorem commits_of_perform (h : w.perform host a = some w') : Commits host w a w'.store := by
  cases a with
  | advance | restart =>
    cases h
    exact .nothing rfl
  | read job =>
    obtain ⟨record, -, rfl⟩ := Option.map_eq_some_iff.mp h
    exact .nothing rfl
  | update index edit => exact writeUpdate_commits h
  | importJobs sources settings now => exact writeImport_commits h
  | other op => exact writeOther_commits h
  | beginPass =>
    obtain ⟨-, rfl⟩ := beginPass_eq_some h
    exact .nothing rfl
  | listJobs =>
    obtain ⟨p, -, -, rfl⟩ := listJobs_eq_some h
    exact .nothing rfl
  | reconcileJob ids => exact reconcileJob_commits h
  | failPass =>
    rw [failPass_eq_some h]
    exact .nothing rfl
  | endPass =>
    obtain ⟨p, -, -, rfl⟩ := endPass_eq_some h
    exact .nothing rfl

theorem commits_of_act (h : w.act host a = some w') : Commits host w a w'.store := by
  obtain ⟨w₁, hw₁, rfl⟩ := act_eq_some h
  have hcommits : Commits host w a w₁.store := commits_of_perform hw₁
  exact hcommits

end Act

/-! ## Clock and pass -/

section Memory

variable {host : Host} {w w' : World} {a : Action}

/-- **Editors touch the database only**: not the clock, and not what the daemon has in memory. -/
theorem editor_frame (ha : a.ofEditor = true) (h : w.perform host a = some w') :
    w'.clock = w.clock ∧ w'.pass = w.pass ∧ w'.adapter = w.adapter := by
  cases a with
  | read job =>
    obtain ⟨record, -, rfl⟩ := Option.map_eq_some_iff.mp h
    exact ⟨rfl, rfl, rfl⟩
  | update index edit =>
    have h : w.writeUpdate index edit = some w' := h
    unfold writeUpdate at h
    split at h
    · cases h
    · exact commit_frame h
  | importJobs sources settings now =>
    have h : w.writeImport sources settings now = some w' := h
    unfold writeImport at h
    split at h
    · cases h
    · exact commit_frame h
  | other op =>
    have h : w.writeOther op = some w' := h
    unfold writeOther at h
    split at h
    · cases h
    · exact commit_frame h
  | _ => cases ha

theorem clock_of_act (hact : w.act host a = some w') :
    (∃ clock, a = .advance clock ∧ w'.clock = clock ∧ w'.store = w.store ∧ w'.pass = w.pass ∧
      w'.history.outages = w.history.outages ++
        (disabledJobs w.store).map (fun job => (job, w.clock.wall, clock.wall))) ∨
    (w'.clock = w.clock ∧ w'.history.outages = w.history.outages) := by
  obtain ⟨w₁, h, rfl⟩ := act_eq_some hact
  cases a with
  | advance clock =>
    cases h
    exact Or.inl ⟨clock, rfl, rfl, rfl, rfl, rfl⟩
  | read | update | importJobs | other => exact Or.inr ⟨(editor_frame rfl h).1, rfl⟩
  | restart =>
    cases h
    exact Or.inr ⟨rfl, rfl⟩
  | beginPass =>
    obtain ⟨-, rfl⟩ := beginPass_eq_some h
    exact Or.inr ⟨rfl, rfl⟩
  | listJobs =>
    obtain ⟨p, -, -, rfl⟩ := listJobs_eq_some h
    exact Or.inr ⟨rfl, rfl⟩
  | reconcileJob ids =>
    obtain ⟨p, job, rest, -, -, ⟨e, -, rfl⟩ | ⟨inserted, s, -, rfl⟩⟩ := reconcileJob_eq_some h
    · exact Or.inr ⟨rfl, rfl⟩
    · exact Or.inr ⟨rfl, rfl⟩
  | failPass =>
    rw [failPass_eq_some h]
    exact Or.inr ⟨rfl, rfl⟩
  | endPass =>
    obtain ⟨p, -, -, rfl⟩ := endPass_eq_some h
    exact Or.inr ⟨rfl, rfl⟩

/-- A pass in progress was in progress before, has just begun, has just listed the jobs, or has
handled one of them. -/
theorem pass_of_act (hact : w.act host a = some w') {p' : Pass} (hp' : w'.pass = some p') :
    w.pass = some p' ∨
    (a = .beginPass ∧ w.pass = none ∧ p' = w.adapter.beginPass w.clock) ∨
    (∃ p, w.pass = some p ∧ p' = { p with jobs := some (w.store.listJobs false) } ∧
      w'.store = w.store) ∨
    (∃ p job rest, w.pass = some p ∧ p.jobs = some (job :: rest) ∧
      p' = { p with jobs := some rest }) := by
  obtain ⟨w₁, h, rfl⟩ := act_eq_some hact
  have hp' : w₁.pass = some p' := hp'
  cases a with
  | advance clock =>
    cases h
    exact Or.inl hp'
  | read | update | importJobs | other => exact Or.inl ((editor_frame rfl h).2.1.symm.trans hp')
  | restart =>
    cases h
    cases hp'
  | beginPass =>
    obtain ⟨hnone, rfl⟩ := beginPass_eq_some h
    cases hp'
    exact Or.inr (Or.inl ⟨rfl, hnone, rfl⟩)
  | listJobs =>
    obtain ⟨p, hp, -, rfl⟩ := listJobs_eq_some h
    cases hp'
    exact Or.inr (Or.inr (Or.inl ⟨p, hp, rfl, rfl⟩))
  | reconcileJob ids =>
    obtain ⟨p, job, rest, hp, hjobs, ⟨e, -, rfl⟩ | ⟨inserted, s, -, rfl⟩⟩ :=
      reconcileJob_eq_some h
    · cases hp'
    · cases hp'
      exact Or.inr (Or.inr (Or.inr ⟨p, job, rest, hp, hjobs, rfl⟩))
  | failPass =>
    rw [failPass_eq_some h] at hp'
    cases hp'
  | endPass =>
    obtain ⟨p, -, -, rfl⟩ := endPass_eq_some h
    cases hp'

end Memory

/-! ## The database -/

variable {host : Host} {w : World} {s' : Store} {a : Action}

/-- A transaction is an operation of the store. -/
theorem Commits.applies (h : Commits host w a s') : s' = w.store ∨ ∃ op, w.store.apply op = .ok s' ∧
      ∀ c, op = .completeAttempt c → a = .other op := by
  cases h with
  | nothing h => exact Or.inl h
  | other op ha hop h => exact Or.inr ⟨op, h, fun _ _ => ha⟩
  | update current job hplan h => exact Or.inr ⟨.updateJob job, h, by simp⟩
  | importJobs batch hplan h => exact Or.inr ⟨.applyImport batch, h, by simp⟩
  | reconcile p job ids ha h =>
    obtain ⟨d, r, result, ids', -, -, h⟩ := h.commit
    exact Or.inr ⟨.materialize job.id (p.cursorUpdate job d)
      (scheduledRuns job p.sample.wall ids' r.selected) (r.omitted.map OmittedRange.summary)
      p.sample.wall, Except.map_eq_ok.mpr ⟨_, h, rfl⟩, by simp⟩

theorem Commits.reachable (h : Commits host w a s') (hs : Store.Reachable Store.anyOp w.store) :
    Store.Reachable Store.anyOp s' := by
  rcases h.applies with rfl | ⟨op, happly, -⟩
  · exact hs
  · exact hs.tail ⟨op, trivial, happly⟩

theorem Reaches.store {allowed : World → Action → Prop}
    (h : Reaches host allowed w) : Store.Reachable Store.anyOp w.store := by
  refine Runs.Reaches.invariant (motive := fun w => Store.Reachable Store.anyOp w.store) ?_ ?_ h
  · rintro w ⟨clock, rfl⟩
    exact .refl
  · intro w a w' hw _ hact
    exact (commits_of_act hact).reachable hw

/-! ## Inserted runs -/

/-- **Where runs of schedules come from**: they were there, or the pass has just selected them. -/
theorem Commits.rows
    (h : Commits host w a s') (hreachable : Store.Reachable Store.anyOp w.store) {r' : RunRow}
    (hr' : r' ∈ s'.runs.rows) (htrigger : r'.trigger ≠ .manual) :
    (∃ r ∈ w.store.runs.rows, r.SameRun r') ∨
    ∃ p job ids d r o, a = .reconcileJob ids ∧ Materializes host w p job s' ∧
      p.reconciliation host job d = .ok r ∧ o ∈ r.selected ∧ r'.jobId = job.id ∧
      r'.revision = job.currentRevision ∧ r'.nominal = some o.nominal ∧
      r'.trigger = if o.catchUp then .catchUp else .scheduled := by
  cases h with
  | nothing h =>
    rw [h] at hr'
    exact Or.inl ⟨r', hr', .refl r'⟩
  | other op ha hop h =>
    refine Or.inl (Store.apply_continues hreachable.owned ?_ h hr' htrigger)
    rintro job cursor runs summaries now rfl
    cases hop
  | update current job hplan h =>
    exact Or.inl (Store.apply_continues hreachable.owned (by simp)
      (show w.store.apply (.updateJob job) = .ok s' from h) hr' htrigger)
  | importJobs batch hplan h =>
    exact Or.inl (Store.apply_continues hreachable.owned (by simp)
      (show w.store.apply (.applyImport batch) = .ok s' from h) hr' htrigger)
  | reconcile p job ids ha h =>
    obtain ⟨d, r, result, ids', -, hr, hcommit⟩ := h.commit
    rcases Store.materialized_rows hcommit r' hr' with hold | ⟨run, hrun, -, hjob, hrevision, ht,
      hnominal⟩
    · exact Or.inl hold
    · obtain ⟨o, ho, id, rfl⟩ := Pass.mem_scheduledRuns hrun
      exact Or.inr ⟨p, job, ids, d, r, o, ha, h, hr, ho, hjob, hrevision, hnominal, ht⟩

theorem insertedRuns_eq_nil {s : Store} (h : ∀ r' ∈ s'.runs.rows, r'.trigger ≠ .manual →
    ∃ r ∈ s.runs.rows, r.SameRun r') : insertedRuns s s' = [] := by
  unfold insertedRuns
  rw [List.map_eq_nil_iff, List.filter_eq_nil_iff]
  intro r' hr' hnew
  simp only [Bool.and_eq_true, bne_iff_ne, Option.isNone_iff_eq_none] at hnew
  obtain ⟨r, hr, hsame⟩ := h r' hr' hnew.1
  rw [hsame.id, Table.find_of_mem hr] at hnew
  cases hnew.2

/-- The runs that handling a job inserts are due in the elapsed range, and all of one revision. -/
theorem Materializes.mem_insertedRuns {p : Pass}
    {job : JobRecord} (h : Materializes host w p job s') {x : Uuid × Option Int × Uuid}
    (hx : x ∈ insertedRuns w.store s') :
    x.1 = job.id ∧ (∃ t, x.2.1 = some t ∧ job.cursor < t ∧ t ≤ p.sample.wall) ∧
      ∃ row ∈ s'.runs.rows, row.trigger ≠ .manual ∧ row.jobId = job.id ∧
        row.revision = job.currentRevision ∧ row.nominal = x.2.1 ∧ row.id = x.2.2 := by
  obtain ⟨d, r, result, ids, -, hr, h⟩ := h.commit
  obtain ⟨row, hrow, rfl⟩ := List.mem_map.mp hx
  rw [List.mem_filter] at hrow
  simp only [Bool.and_eq_true, bne_iff_ne, Option.isNone_iff_eq_none] at hrow
  obtain ⟨hmem, htrigger, hnew⟩ := hrow
  rcases Store.materialized_rows h row hmem with ⟨r₀, hr₀, hsame⟩ |
    ⟨run, hrun, -, hjob, hrevision, -, hnominal⟩
  · rw [hsame.id, Table.find_of_mem hr₀] at hnew
    cases hnew
  · obtain ⟨o, ho, id, rfl⟩ := Pass.mem_scheduledRuns hrun
    obtain ⟨hlow, hhigh⟩ := Pass.reconciliation_between hr o ho
    exact ⟨hjob, ⟨o.nominal, hnominal, hlow, hhigh⟩, row, hmem, htrigger, hjob, hrevision, rfl, rfl⟩

theorem Commits.insertedRuns_cases
    (h : Commits host w a s') (hreachable : Store.Reachable Store.anyOp w.store) :
    insertedRuns w.store s' = [] ∨
      ∃ p job ids, a = .reconcileJob ids ∧ Materializes host w p job s' := by
  by_cases hsome : ∃ p job ids, a = .reconcileJob ids ∧ Materializes host w p job s'
  · exact Or.inr hsome
  refine Or.inl (insertedRuns_eq_nil fun r' hr' ht => ?_)
  rcases h.rows hreachable hr' ht with hold | ⟨p, job, ids, -, -, -, ha, hmaterializes, -⟩
  · exact hold
  · exact absurd ⟨p, job, ids, ha, hmaterializes⟩ hsome

/-! ## Fixed runs -/

theorem exists_reaches (host : Host) (allowed : World → Action → Prop)
    (check : World → Action → Bool) (hcheck : ∀ w a, check w a = true → allowed w a)
    (actions : List Action) (clock : ClockSample) (P : World → Prop) [DecidablePred P]
    (h : (Runs.perform (act host) check actions (initial clock)).any (fun w => P w) = true) :
    ∃ w, Reaches host allowed w ∧ P w :=
  Runs.exists_reaches check hcheck actions ⟨clock, rfl⟩ P h

def utcHost : Host := ⟨noZones, .utc, .utc⟩

def hourly : JobDefinition := ⟨.every 3600000000 0, .default, .retain, "true"⟩

/-- One whole pass over one job; a new run gets the given identity. -/
def passAt (now : Int) (run : Uuid) : List Action :=
  [.advance ⟨now, now.toNat⟩, .beginPass, .listJobs, .reconcileJob (fun _ => run), .endPass]

end World

end Locron
