import Locron.Windows.Protocol

set_option autoImplicit false

/-! # Service records

The record of the scheduled tasks of an installation during maintenance: which roles there are, how
far each of them is stopped, refreshed or removed, and which instances had to be stopped by force. A
record is checked by itself and against its predecessor.
-/

namespace Locron.Windows

open Except (ensure forEach)

structure ExecutableBinding where
  path : Chars
  volume : Chars
  file : Chars
deriving DecidableEq

inductive RestorePhase where
  | snapshot
  | quiescing
  | quiescent
  | restoring
  | restored
  | removing
  | removed
deriving DecidableEq, Repr

def RestorePhase.name : RestorePhase → String
  | .snapshot => "snapshot"
  | .quiescing => "quiescing"
  | .quiescent => "quiescent"
  | .restoring => "restoring"
  | .restored => "restored"
  | .removing => "removing"
  | .removed => "removed"

inductive RoleProgress where
  | original
  | disableIntent
  | disabled
  | refreshIntent
  | refreshed
  | enableIntent
  | restored
  | deleteIntent
  | removed
deriving DecidableEq, Repr

def RoleProgress.name : RoleProgress → String
  | .original => "original"
  | .disableIntent => "disable_intent"
  | .disabled => "disabled"
  | .refreshIntent => "refresh_intent"
  | .refreshed => "refreshed"
  | .enableIntent => "enable_intent"
  | .restored => "restored"
  | .deleteIntent => "delete_intent"
  | .removed => "removed"

/-- Which of the two programs a task runs. -/
inductive Target where
  | daemon
  | dashboard
deriving DecidableEq, Repr

def Target.name : Target → String
  | .daemon => "daemon"
  | .dashboard => "dashboard"

structure RestoreRole where
  role : Target
  root : Chars
  «instance» : Chars
  taskName : Chars
  enabled : Bool
  definition : Chars
  futureDefinition : Option Chars
  progress : RoleProgress
deriving DecidableEq

inductive ForcedPhase where
  | stopRequested
  | exitConfirmed
deriving DecidableEq, Repr

def ForcedPhase.name : ForcedPhase → String
  | .stopRequested => "stop_requested"
  | .exitConfirmed => "exit_confirmed"

structure ForcedInstance where
  roleIndex : Nat
  «instance» : Chars
  phase : ForcedPhase
deriving DecidableEq

structure ServiceRestoreRecord where
  version : Nat
  sid : Chars
  previous : ExecutableBinding
  roles : List RestoreRole
  phase : RestorePhase
  next : Option ExecutableBinding
  forced : List ForcedInstance
deriving DecidableEq

/-! ## JSON -/

def text (name : String) : Json := .str name.toList

def natural (n : Nat) : Json := .num (Json.decimal n)

def ExecutableBinding.toJson (binding : ExecutableBinding) : Json :=
  object [("path", .str binding.path), ("volume", .str binding.volume), ("file", .str binding.file)]

def RestoreRole.toJson (role : RestoreRole) : Json :=
  object [("role", text role.role.name), ("root", .str role.root), ("instance", .str role.instance),
    ("task_name", .str role.taskName), ("enabled", .bool role.enabled),
    ("definition", .str role.definition),
      ("future_definition", nullable .str role.futureDefinition),
    ("progress", text role.progress.name)]

def ForcedInstance.toJson (fact : ForcedInstance) : Json :=
  object [("role_index", natural fact.roleIndex), ("instance", .str fact.instance),
    ("phase", text fact.phase.name)]

def ServiceRestoreRecord.toJson (record : ServiceRestoreRecord) : Json :=
  object [("version", natural record.version), ("sid", .str record.sid),
    ("previous", record.previous.toJson), ("roles", .arr (record.roles.map RestoreRole.toJson)),
    ("phase", text record.phase.name), ("next", nullable ExecutableBinding.toJson record.next),
    ("forced", .arr (record.forced.map ForcedInstance.toJson))]

/-! ## The check of one record -/

def validateHex (value : Chars) (width : Nat) : Except String Unit :=
  ensure (fixedHex value width = true)
    "maintenance identities require fixed-width lowercase hexadecimal"

def ExecutableBinding.validate (binding : ExecutableBinding) : Except String Unit := do
  validatePath binding.path
  validateHex binding.volume 16
  validateHex binding.file 32

def taskName (id : Chars) (role : Target) : Chars :=
  "Locron-v1-".toList ++ id ++ ['-'] ++ role.name.toList

def RestorePhase.permits : RestorePhase → RoleProgress → Bool
  | .snapshot, progress => progress == .original
  | .quiescing, progress => [.original, .disableIntent, .disabled].contains progress
  | .quiescent, progress => progress == .disabled
  | .restoring, progress =>
    [.disabled, .refreshIntent, .refreshed, .enableIntent, .restored].contains progress
  | .restored, progress => progress == .restored
  | .removing, progress => [.disabled, .deleteIntent, .removed].contains progress
  | .removed, progress => progress == .removed

def RestorePhase.isRestoring (phase : RestorePhase) : Bool :=
  phase == .restoring || phase == .restored

def RestoreRole.validate (phase : RestorePhase) (role : RestoreRole) : Except String Unit := do
  validatePath role.root
  validateHex role.instance 64
  validateHex role.definition 64
  ensure (role.taskName = Windows.taskName role.instance role.role ∧
      phase.isRestoring = role.futureDefinition.isSome)
    "maintenance role name/definition/inventory is invalid"
  forEach (validateHex · 64) role.futureDefinition.toList
  ensure (phase.permits role.progress = true) "maintenance role progress is invalid for its phase"

def recordVersion : Nat := 1

def roleLimit : Nat := 256

def recordLimit : Nat := 128 * 1024

/-- A forced stop is one of a role that is being stopped, and confirmed before the next phase. -/
def ServiceRestoreRecord.validateForced (record : ServiceRestoreRecord) (fact : ForcedInstance) :
    Except String Unit := do
  ensure (canonicalUuid fact.instance = true) "forced task instance is not a UUID"
  match record.roles[fact.roleIndex]? with
  | none => throw "forced task instance/index is not canonical and unique"
  | some role =>
    ensure (record.phase ≠ .snapshot ∧ role.progress ≠ .original ∧
        (record.phase = .quiescing ∨ fact.phase = .exitConfirmed))
      "forced completion fact is inconsistent with the record phase"

def ServiceRestoreRecord.validateForSid (record : ServiceRestoreRecord) (sid : Chars) :
    Except String Unit := do
  ensure (record.version = recordVersion ∧ record.sid = sid ∧ record.roles.length ≤ roleLimit)
    "maintenance record version/account/inventory does not match"
  validateSid record.sid
  record.previous.validate
  ensure (record.phase.isRestoring = record.next.isSome)
    "maintenance future binding is invalid for its phase"
  forEach ExecutableBinding.validate record.next.toList
  forEach (RestoreRole.validate record.phase) record.roles
  ensure (record.roles.map (·.taskName)).Nodup
    "maintenance role name/definition/inventory is invalid"
  forEach record.validateForced record.forced
  ensure ((record.forced.map (·.roleIndex)).Nodup ∧ (record.forced.map (·.instance)).Nodup)
    "forced task instance/index is not canonical and unique"
  ensure (record.toJson.size ≤ recordLimit) "complete service record exceeds 128 KiB"

/-! ## The check of a successor -/

/-- The origin of a role, which never changes. -/
def RestoreRole.sameOriginal (left right : RestoreRole) : Bool :=
  left.role == right.role && left.root == right.root && left.instance == right.instance &&
    left.taskName == right.taskName && left.enabled == right.enabled &&
    left.definition == right.definition

def ServiceRestoreRecord.sameOriginal (left right : ServiceRestoreRecord) : Bool :=
  left.version == right.version && left.sid == right.sid && left.previous == right.previous &&
    left.roles.length == right.roles.length &&
    (left.roles.zip right.roles).all fun (l, r) => l.sameOriginal r

def ServiceRestoreRecord.allProgress (record : ServiceRestoreRecord) (progress : RoleProgress) :
    Bool :=
  record.roles.all (·.progress == progress)

/-- The progress of the roles, one after the other. -/
def ServiceRestoreRecord.progress (record : ServiceRestoreRecord) : List RoleProgress :=
  record.roles.map (·.progress)

/-- First the roles that are done, then at most one at work, then those that wait. -/
def orderedProgressShape (done waiting : RoleProgress) (active : List RoleProgress)
    (progress : List RoleProgress) : Bool :=
  match progress.dropWhile (· == done) with
  | [] => true
  | first :: rest => active.contains first && rest.all (· == waiting)

def ServiceRestoreRecord.transitionShape (record : ServiceRestoreRecord) : Bool :=
  match record.phase with
  | .quiescing =>
    !record.roles.isEmpty && !record.allProgress .original &&
      orderedProgressShape .disabled .original [.original, .disableIntent] record.progress &&
      (record.forced.isEmpty || record.allProgress .disabled)
  | .restoring =>
    orderedProgressShape .restored .disabled [.disabled, .refreshIntent, .refreshed, .enableIntent]
      record.progress
  | .removing => orderedProgressShape .removed .disabled [.disabled, .deleteIntent] record.progress
  | .snapshot | .quiescent | .restored | .removed => true

def validateTransitionShape (record : ServiceRestoreRecord) : Except String Unit :=
  ensure (record.transitionShape = true) "service progress is not an ordered reachable state"

/-- Exactly one role moves along an edge, those before it are done and those after it wait. -/
def orderedProgressStep (edges : List (RoleProgress × RoleProgress)) (done waiting : RoleProgress) :
    List RoleProgress → List RoleProgress → Bool
  | prior :: priors, next :: nexts =>
    if next = prior then next == done && orderedProgressStep edges done waiting priors nexts
    else edges.contains (prior, next) && priors == nexts && nexts.all (· == waiting)
  | _, _ => false

/-- The number of facts that are newly confirmed, if nothing else changes. -/
def confirmations : List ForcedInstance → List ForcedInstance → Option Nat
  | [], [] => some 0
  | prior :: priors, next :: nexts =>
    if next.roleIndex ≠ prior.roleIndex ∨ next.instance ≠ prior.instance then none
    else if next.phase = prior.phase then confirmations priors nexts
    else if prior.phase = .stopRequested ∧ next.phase = .exitConfirmed then
      (confirmations priors nexts).map (· + 1)
    else none
  | _, _ => some 0

/-- One fact is appended, or one is confirmed. -/
def forcedSuccessor (previous next : List ForcedInstance) : Bool :=
  (next.length == previous.length + 1 && next.take previous.length == previous &&
      (next.getLast?.map (·.phase)) == some .stopRequested) ||
    (next.length == previous.length && confirmations previous next == some 1)

/-- The transitions without a change of forced facts. -/
def ServiceRestoreRecord.permitted (record previous : ServiceRestoreRecord) : Bool :=
  let sameProgress := record.progress == previous.progress
  match previous.phase, record.phase with
  | .snapshot, .quiescing =>
    orderedProgressStep [(.original, .disableIntent)] .disabled .original previous.progress
      record.progress
  | .snapshot, .quiescent => record.roles.isEmpty
  | .quiescing, .quiescing =>
    orderedProgressStep [(.original, .disableIntent), (.disableIntent, .disabled)] .disabled
      .original previous.progress record.progress
  | .quiescing, .quiescent => sameProgress && record.allProgress .disabled
  | .quiescent, .restoring => sameProgress && record.allProgress .disabled
  | .quiescent, .removing => sameProgress && record.allProgress .disabled
  | .restoring, .restoring =>
    orderedProgressStep [(.disabled, .refreshIntent), (.refreshIntent, .refreshed),
      (.refreshed, .enableIntent), (.enableIntent, .restored)] .restored .disabled
      previous.progress record.progress
  | .restoring, .restored => sameProgress && record.allProgress .restored
  | .removing, .removing =>
    orderedProgressStep [(.disabled, .deleteIntent), (.deleteIntent, .removed)] .removed .disabled
      previous.progress record.progress
  | .removing, .removed => sameProgress && record.allProgress .removed
  | _, _ => false

def ServiceRestoreRecord.validateSuccessor (record previous : ServiceRestoreRecord) :
    Except String Unit := do
  previous.validateForSid previous.sid
  record.validateForSid previous.sid
  validateTransitionShape previous
  validateTransitionShape record
  ensure (record.sameOriginal previous = true) "service transition changed its frozen origin"
  if record = previous then pure ()
  else do
    ensure ((previous.phase = .quiescent ∧ record.phase = .restoring) ∨
        (record.next = previous.next ∧
          record.roles.map (·.futureDefinition) = previous.roles.map (·.futureDefinition)))
      "service transition rebound a future definition"
    if record.forced ≠ previous.forced then do
      ensure (record.phase = .quiescing ∧ previous.phase = .quiescing ∧
          record.progress = previous.progress ∧ record.allProgress .disabled = true)
        "forced fact changed outside an all-disabled observation"
      ensure (forcedSuccessor previous.forced record.forced = true)
        "forced facts require one append or confirmation"
    else
      ensure (record.permitted previous = true) "service transition is not one exact forward step"

end Locron.Windows
