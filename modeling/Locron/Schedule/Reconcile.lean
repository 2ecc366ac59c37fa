import Locron.Core.Policy
import Locron.Schedule.Cron

set_option autoImplicit false

/-! # Schedules and their reconciliation

A compiled schedule is reconciled over an elapsed range `(after, now]`: the start deadline cuts off
what is too old, the missed-run policy selects from the rest, and everything else is summed up in
omission summaries.
-/

namespace Locron

/-- Why a range of elapsed occurrences was not materialized. -/
inductive OmittedRangeKind where
  | startDeadline
  | missedRunPolicy
  | catchUpLimit
deriving DecidableEq, Repr

/-- A summary of omitted occurrences. -/
structure OmittedRange where
  kind : OmittedRangeKind
  count : Nat
  first : Int
  last : Int
deriving DecidableEq, Repr

/-- A selected occurrence; `catchUp` marks work for an elapsed range. -/
structure SelectedOccurrence where
  nominal : Int
  catchUp : Bool
deriving DecidableEq, Repr

/-- The result of reconciling one cursor interval. -/
structure ScheduleReconciliation where
  selected : List SelectedOccurrence
  omitted : List OmittedRange
deriving DecidableEq, Repr

/-- Whether the daemon was responsible for the elapsed range. -/
inductive ElapsedKind where
  | normal
  | missed
deriving DecidableEq, Repr

inductive ScheduleTimeZone where
  | «local»
  | iana (name : String)
deriving DecidableEq, Repr

/-- A normalized schedule; intervals and instants are in microseconds. -/
inductive Schedule where
  | cron (expression : String) (timezone : ScheduleTimeZone)
  | every (interval : Nat) (anchor : Int)
  | «at» (at_ : Int)
deriving DecidableEq, Repr

/-- A validated schedule with its parsed calendar expression. -/
inductive CompiledSchedule where
  | cron (expression : CronExpression) (timezone : ScheduleTimeZone)
  | every (interval : Nat) (anchor : Int)
  | «at» (at_ : Int)

/-- The time zone database of the host. -/
abbrev ZoneTable := String → Option Zone

/-- The database's text for an unknown name. -/
def unknownZoneText (name : String) : String := "failed to find time zone " ++ name

namespace ScheduleTimeZone

/-- The zone, with the local one given. -/
def resolveWith (zones : ZoneTable) (localZone : Zone) :
    ScheduleTimeZone → Except ValidationError Zone
  | .local => .ok localZone
  | .iana name =>
    match zones name with
    | some zone => .ok zone
    | none => .error ⟨"timezone", "unknown_timezone", unknownZoneText name⟩

end ScheduleTimeZone

/-- Validates a schedule and compiles what does not depend on the clock. -/
def Schedule.compile (zones : ZoneTable) (systemZone : Zone) :
    Schedule → Except ValidationError CompiledSchedule
  | .cron expression timezone =>
    match timezone.resolveWith zones systemZone with
    | .error e => .error e
    | .ok _ =>
      match CronExpression.parse expression with
      | .error e => .error e
      | .ok parsed => .ok (.cron parsed timezone)
  | .every interval anchor =>
    match intervalOccurrences interval anchor anchor 0 with
    | .error e => .error e
    | .ok _ => .ok (.every interval anchor)
  | .at at_ => .ok (.at at_)

namespace OccurrenceStats

/-- A non-empty range as an omission summary. -/
def intoRange (stats : OccurrenceStats) (kind : OmittedRangeKind) : OmittedRange :=
  ⟨kind, stats.count, stats.first.getD 0, stats.last.getD 0⟩

end OccurrenceStats

/-- What the policy keeps of the elapsed occurrences. -/
def retained (missedRun : MissedRunPolicy) (l : List Int) : List Int :=
  match missedRun with
  | .all => l
  | .skip => []
  | .latest => l.drop (l.length - 1)

/-- The selection from the newest occurrences: in a normal range the last one is current work and
only those before it are missed. -/
def selectOccurrences (elapsed : ElapsedKind) (missedRun : MissedRunPolicy) (newest : List Int) :
    List SelectedOccurrence :=
  match elapsed with
  | .missed => (retained missedRun newest).map (fun nominal => ⟨nominal, true⟩)
  | .normal =>
    match newest.getLast? with
    | none => []
    | some normal =>
      (retained missedRun newest.dropLast).map (fun nominal => ⟨nominal, true⟩)
        ++ [⟨normal, false⟩]

/-- The exclusive lower end of what the start deadline still admits. -/
def deadlineAfter (after now : Int) : Option Nat → Int
  | none => after
  | some deadline =>
    let cutoff := saturate (now - (i64OfNat deadline).getD i64Max)
    max after (saturate (cutoff - 1))

namespace CompiledSchedule

variable (s : CompiledSchedule) (zones : ZoneTable) (localZone : Zone)

def rangeStats (after through : Int) : Except ValidationError OccurrenceStats :=
  if through ≤ after then .ok OccurrenceStats.default
  else
    match s with
    | .at at_ =>
      .ok (if after < at_ ∧ at_ ≤ through then OccurrenceStats.one at_
        else OccurrenceStats.default)
    | .every interval anchor => intervalRangeStats interval anchor after through
    | .cron expression timezone =>
      match timezone.resolveWith zones localZone with
      | .error e => .error e
      | .ok zone => expression.rangeStats after through zone

def newestBetween (after through : Int) (limit : Nat) : Except ValidationError (List Int) :=
  if limit = 0 ∨ through ≤ after then .ok []
  else
    match s with
    | .at at_ => .ok (if after < at_ ∧ at_ ≤ through then [at_] else [])
    | .every interval anchor => intervalNewest interval anchor after through limit
    | .cron expression timezone =>
      match timezone.resolveWith zones localZone with
      | .error e => .error e
      | .ok zone => expression.newestBetween after through limit zone

/-- The newest omitted occurrence: the one before the first selected, or the last of all. -/
def lastOmitted (deadline : Int) (eligible : OccurrenceStats)
    (selected : List SelectedOccurrence) : Except ValidationError Int :=
  match selected.head? with
  | some first =>
    match s.newestBetween zones localZone deadline (saturate (first.nominal - 1)) 1 with
    | .error e => .error e
    | .ok newest =>
      match newest.head? with
      | none => .error (cronError "omitted prefix has no last occurrence")
      | some last => .ok last
  | none =>
    match eligible.last with
    | none => .error (cronError "non-empty range has no last occurrence")
    | some last => .ok last

/-- The occurrences the start deadline cuts off. -/
def expiredStats (after deadline : Int) : Except ValidationError OccurrenceStats :=
  if after < deadline then s.rangeStats zones localZone after deadline
  else .ok OccurrenceStats.default

/-- The summary of the eligible occurrences that are not selected, if there are any. -/
def omittedStats (deadline : Int) (missedRun : MissedRunPolicy) (elapsed : ElapsedKind)
    (eligible : OccurrenceStats) (selected : List SelectedOccurrence) :
    Except ValidationError (List OmittedRange) :=
  let missedTotal := eligible.count - if elapsed = .normal ∧ 0 < eligible.count then 1 else 0
  let selectedMissed := (selected.filter (fun item => item.catchUp)).length
  let omittedCount := missedTotal - selectedMissed
  if omittedCount = 0 then .ok []
  else
    match eligible.first with
    | none => .error (cronError "non-empty range has no first occurrence")
    | some first =>
      match s.lastOmitted zones localZone deadline eligible selected with
      | .error e => .error e
      | .ok last =>
        let kind := if missedRun = .all then .catchUpLimit else .missedRunPolicy
        .ok [⟨kind, omittedCount, first, last⟩]

def reconcile (after now : Int) (missedRun : MissedRunPolicy) (startDeadline : Option Nat)
    (catchUpLimit : Nat) (elapsed : ElapsedKind) :
    Except ValidationError ScheduleReconciliation :=
  if ¬ (1 ≤ catchUpLimit ∧ catchUpLimit ≤ 1000) then
    .error ⟨"catch_up_limit", "out_of_range", "must be from 1 through 1000"⟩
  else if now ≤ after then .ok ⟨[], []⟩
  else do
    let deadline := deadlineAfter after now startDeadline
    let expired ← s.expiredStats zones localZone after deadline
    let eligible ← s.rangeStats zones localZone deadline now
    let newest ← s.newestBetween zones localZone deadline now
      (catchUpLimit + if elapsed = .normal then 1 else 0)
    let selected := selectOccurrences elapsed missedRun newest
    let expiredRange := if 0 < expired.count then [expired.intoRange .startDeadline] else []
    let omittedRange ← s.omittedStats zones localZone deadline missedRun elapsed eligible selected
    .ok ⟨selected, expiredRange ++ omittedRange⟩

end CompiledSchedule

end Locron
