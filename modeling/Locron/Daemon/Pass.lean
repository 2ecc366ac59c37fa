import Locron.Schedule.Bounds
import Locron.Store.Edits

set_option autoImplicit false

/-! # The reconciliation pass

A pass samples the clocks, lists the enabled jobs and then handles one job after the other: it
reconciles the schedule from the cursor that was listed up to the sampled time, and materializes the
selection in a transaction of its own. The first error ends the pass. What the daemon keeps in
memory between passes changes only at the end of a pass without an error.
-/

namespace Locron

structure Host where
  zones : ZoneTable
  systemZone : Zone
  localZone : Zone

/-- A reading of the wall clock and of the monotonic clock, in microseconds. -/
structure ClockSample where
  wall : Int
  monotonic : Nat
deriving DecidableEq, Repr

/-- What the daemon process remembers between passes. -/
structure Adapter where
  firstReconcile : Bool
  lastClockSample : Option ClockSample
deriving DecidableEq, Repr

namespace Adapter

/-- A daemon process that has not passed yet. -/
def new : Adapter := ⟨true, none⟩

/-- The wall clock and the monotonic clock have moved apart by more than a second since the last
complete pass. -/
def clockDiscontinuity (a : Adapter) (now : ClockSample) : Bool :=
  match a.lastClockSample with
  | none => false
  | some previous =>
    let wallDelta := now.wall - previous.wall
    let monotonicDelta := now.monotonic - previous.monotonic
    1000000 < (wallDelta - monotonicDelta).natAbs

end Adapter

/-- Why a pass ended early. -/
inductive PassError where
  | definition
  | schedule (error : ValidationError)
  | store (error : StoreError)
deriving DecidableEq, Repr

/-- A pass in progress; `jobs` are the listed jobs that are still to be handled. -/
structure Pass where
  sample : ClockSample
  startup : Bool
  clockDiscontinuity : Bool
  jobs : Option (List JobRecord)

def Adapter.beginPass (a : Adapter) (now : ClockSample) : Pass :=
  ⟨now, a.firstReconcile, a.clockDiscontinuity now, none⟩

/-- What a pass without an error leaves in memory. -/
def Adapter.afterPass (p : Pass) : Adapter := ⟨false, some p.sample⟩

/-- The event kind of an omission. -/
def OmittedRangeKind.summaryKind : OmittedRangeKind → String
  | .startDeadline => "missed_start_deadline"
  | .missedRunPolicy => "missed_policy_skipped"
  | .catchUpLimit => "catch_up_omitted"

def OmittedRange.summary (range : OmittedRange) : ReconciliationSummary :=
  ⟨range.kind.summaryKind, range.count, range.first, range.last⟩

def SelectedOccurrence.run (job : JobRecord) (now : Int) (id : Uuid) (o : SelectedOccurrence) :
    NewScheduledRun where
  id := id
  jobId := job.id
  revision := job.currentRevision
  trigger := if o.catchUp then .catchUp else .scheduled
  nominal := o.nominal
  requestedAt := now
  eligibleAt := now
  snapshot := job.definition

/-- The runs of the selected occurrences; `ids` are the new identities. -/
def scheduledRuns (job : JobRecord) (now : Int) (ids : Nat → Uuid)
    (selected : List SelectedOccurrence) : List NewScheduledRun :=
  selected.zipIdx.map (fun (o, i) => o.run job now (ids i))

/-- A one-time schedule whose time has come. -/
def Schedule.resolvedBy (now : Int) : Schedule → Bool
  | .at at_ => at_ ≤ now
  | _ => false

namespace Pass

/-- A range counts as missed after a start, after a clock discontinuity and after the job was
disabled. -/
def elapsedKind (p : Pass) (job : JobRecord) : ElapsedKind :=
  if p.startup || p.clockDiscontinuity || job.disabledSince.isSome then .missed else .normal

/-- What the schedule of a listed job selects and omits. -/
def reconciliation (host : Host) (p : Pass) (job : JobRecord) (d : JobDefinition) :
    Except PassError ScheduleReconciliation :=
  match d.schedule.compile host.zones host.systemZone with
  | .error e => .error (.schedule e)
  | .ok compiled =>
    match compiled.reconcile host.zones host.localZone job.cursor p.sample.wall d.policy.missedRun
        d.policy.startDeadline d.policy.catchUpLimit (p.elapsedKind job) with
    | .error e => .error (.schedule e)
    | .ok r => .ok r

/-- The cursor moves from where it was listed to the time of the pass. -/
def cursorUpdate (p : Pass) (job : JobRecord) (d : JobDefinition) : CursorUpdate :=
  ⟨job.currentRevision, job.cursor, p.sample.wall, d.schedule.resolvedBy p.sample.wall⟩

/-- Handles one listed job; the result tells how many runs were inserted. -/
def reconcileJob (host : Host) (p : Pass) (job : JobRecord) (ids : Nat → Uuid) (s : Store) :
    Except PassError (Nat × Store) :=
  match job.definition.definition with
  | none => .error .definition
  | some d =>
    if p.sample.wall ≤ job.cursor then .ok (0, s)
    else
      match p.reconciliation host job d with
      | .error e => .error e
      | .ok r =>
        match s.materializeWithSummaries job.id (p.cursorUpdate job d)
            (scheduledRuns job p.sample.wall ids r.selected)
            (r.omitted.map OmittedRange.summary) p.sample.wall with
        | .error e => .error (.store e)
        | .ok (result, s') => .ok (result.inserted, s')

/-- **What handling a job does**: nothing when the cursor is not behind, or one transaction with the
runs of a reconciliation of the elapsed range. -/
theorem reconcileJob_ok {host : Host} {p : Pass} {job : JobRecord} {ids : Nat → Uuid} {s s' : Store}
    {inserted : Nat} (h : p.reconcileJob host job ids s = .ok (inserted, s')) :
    ∃ d, job.definition.definition = some d ∧
      ((p.sample.wall ≤ job.cursor ∧ s' = s) ∨
        (job.cursor < p.sample.wall ∧ ∃ r result,
          p.reconciliation host job d = .ok r ∧
          s.materializeWithSummaries job.id (p.cursorUpdate job d)
            (scheduledRuns job p.sample.wall ids r.selected)
            (r.omitted.map OmittedRange.summary) p.sample.wall = .ok (result, s'))) := by
  unfold reconcileJob at h
  split at h
  · cases h
  next d hd =>
  refine ⟨d, hd, ?_⟩
  split at h
  · next hle =>
    cases h
    exact Or.inl ⟨hle, rfl⟩
  next hlt =>
  split at h
  · cases h
  next r hr =>
  split at h
  · cases h
  next result s₁ hs₁ =>
  cases h
  exact Or.inr ⟨not_le.mp hlt, r, result, hr, hs₁⟩

theorem mem_scheduledRuns {job : JobRecord} {now : Int} {ids : Nat → Uuid}
    {selected : List SelectedOccurrence} {run : NewScheduledRun}
    (h : run ∈ scheduledRuns job now ids selected) :
    ∃ o ∈ selected, ∃ id, run = o.run job now id := by
  obtain ⟨⟨o, i⟩, ho, rfl⟩ := List.mem_map.mp h
  exact ⟨o, (List.mem_zipIdx' ho).2 ▸ List.getElem_mem _, ids i, rfl⟩

theorem scheduledRuns_sorted {job : JobRecord} {now : Int} {ids : Nat → Uuid}
    {selected : List SelectedOccurrence}
    (h : selected.Pairwise (fun o o' => o.nominal < o'.nominal)) :
    (scheduledRuns job now ids selected).Pairwise (fun x y => x.nominal < y.nominal) := by
  have hnominals : (scheduledRuns job now ids selected).map (fun run => run.nominal)
      = selected.map (fun o => o.nominal) := by
    unfold scheduledRuns
    rw [List.map_map]
    conv_rhs => rw [← List.zipIdx_map_fst 0 selected, List.map_map]
    rfl
  rw [← List.pairwise_map (f := fun run : NewScheduledRun => run.nominal) (R := (· < ·)), hnominals,
    List.pairwise_map]
  exact h

section Reconciliation

variable {host : Host} {p : Pass} {job : JobRecord} {d : JobDefinition} {r : ScheduleReconciliation}
  (h : p.reconciliation host job d = .ok r)

include h

theorem reconciliation_ok : ∃ compiled : CompiledSchedule,
    d.schedule.compile host.zones host.systemZone = .ok compiled ∧
    compiled.reconcile host.zones host.localZone job.cursor p.sample.wall d.policy.missedRun
      d.policy.startDeadline d.policy.catchUpLimit (p.elapsedKind job) = .ok r := by
  unfold reconciliation at h
  split at h
  · cases h
  next compiled hcompiled =>
  split at h
  · cases h
  next hr =>
  cases h
  exact ⟨compiled, hcompiled, hr⟩

/-- What a pass selects is due in the elapsed range of the job. -/
theorem reconciliation_between :
    ∀ o ∈ r.selected, job.cursor < o.nominal ∧ o.nominal ≤ p.sample.wall := by
  obtain ⟨compiled, -, hr⟩ := reconciliation_ok h
  exact CompiledSchedule.selected_between hr

/-- What a pass selects from a missed range is catch-up work. -/
theorem reconciliation_missed (hmissed : p.elapsedKind job = .missed) :
    ∀ o ∈ r.selected, o.catchUp = true := by
  obtain ⟨compiled, -, hr⟩ := reconciliation_ok h
  exact CompiledSchedule.catchUp_of_missed hr hmissed

end Reconciliation

end Pass

end Locron
