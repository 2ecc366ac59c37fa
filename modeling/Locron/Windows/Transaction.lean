import Locron.Windows.Journal
import Locron.Windows.Service

set_option autoImplicit false

/-! # Maintenance transactions

The record that the journal of a maintenance transaction holds in each frame: the files with the
copies made of them, the service record, the PATH plan and the phase of the whole. A record is
checked by itself and against its predecessor. (That the space for the records is reserved
beforehand is part of the journal.)
-/

namespace Locron.Windows

open Except (ensure forEach)

/-! ## Files -/

/-- The full identity of a file, in hexadecimal. -/
structure Identity where
  volume : Chars
  file : Chars
deriving DecidableEq

def Identity.validate (identity : Identity) : Except String Unit :=
  ensure (fixedHex identity.volume 16 = true ∧ fixedHex identity.file 32 = true)
    "transaction requires complete canonical file identities"

structure Content where
  bytes : Nat
  sha256 : Chars
deriving DecidableEq

def payloadLimit : Nat := 64 * 1024 * 1024

def receiptLimit : Nat := 128 * 1024

def Content.validate (name : Chars) (content : Content) : Except String Unit :=
  ensure (content.bytes ≤ (if name = receiptName then receiptLimit else payloadLimit) ∧
      validHash content.sha256 = true)
    "transaction leaf exceeds its exact content bound"

structure FileFact where
  identity : Identity
  content : Content
deriving DecidableEq

inductive LeafPhase where
  | original
  | backupIntent
  | backedUp
  | deleteIntent
  | absent
  | createIntent
  | created
  | verified
  | rollbackDeleteIntent
  | rollbackAbsent
  | rollbackCreateIntent
  | rollbackCreated
  | rolledBack
deriving DecidableEq, Repr

structure Leaf where
  original : FileFact
  desired : Option Content
  backup : Option FileFact
  created : Option Identity
  rollback : Option Identity
  phase : LeafPhase
deriving DecidableEq

/-- The phases in which a backup is recorded. -/
def LeafPhase.backupRequired (phase : LeafPhase) : Bool :=
  phase ∉ [.original, .backupIntent, .rolledBack]

def LeafPhase.createdRequired (phase : LeafPhase) : Bool :=
  phase ∈ [.created, .verified, .rollbackDeleteIntent]

def LeafPhase.createdPossible (phase : LeafPhase) : Bool :=
  phase ∈ [.created, .verified, .rollbackDeleteIntent, .rollbackAbsent, .rollbackCreateIntent,
    .rollbackCreated, .rolledBack]

def LeafPhase.rollbackRequired (phase : LeafPhase) : Bool :=
  phase ∈ [.rollbackCreated, .rolledBack]

def Leaf.validateBackup (leaf : Leaf) (backup : FileFact) : Except String Unit := do
  backup.identity.validate
  ensure (backup.identity ≠ leaf.original.identity ∧ backup.content = leaf.original.content)
    "backup is not a separate exact copy of the original"

def Leaf.validateCreated (leaf : Leaf) (created : Identity) : Except String Unit := do
  created.validate
  ensure (leaf.desired.isSome = true ∧ created ≠ leaf.original.identity ∧
      ∀ backup ∈ leaf.backup, created ≠ backup.identity)
    "new leaf identity conflicts with immutable original/backup facts"

def Leaf.validateRollback (leaf : Leaf) (rollback : Identity) : Except String Unit := do
  rollback.validate
  ensure (leaf.created ≠ some rollback ∧ ∀ backup ∈ leaf.backup, rollback ≠ backup.identity)
    "restored leaf cannot reuse a deleted new object or its backup"

def Leaf.validatePhase (leaf : Leaf) : Except String Unit := do
  ensure ((leaf.phase.backupRequired = true → leaf.backup.isSome = true) ∧
      (leaf.phase.createdRequired = true → leaf.created.isSome = true) ∧
      (leaf.phase.rollbackRequired = true → leaf.rollback.isSome = true))
    "transaction phase lacks a durable exact identity"
  ensure (leaf.phase = .original ∨ leaf.phase = .backupIntent →
      leaf.backup = none ∧ leaf.created = none ∧ leaf.rollback = none)
    "unmodified leaf contains future identity facts"
  ensure (leaf.phase = .createIntent ∨ leaf.phase = .created ∨ leaf.phase = .verified →
      leaf.desired.isSome = true)
    "removal cannot create a replacement"
  ensure (leaf.phase.createdPossible = false → leaf.created = none)
    "premature newly created identity"
  ensure (leaf.phase.rollbackRequired = false → leaf.rollback = none) "premature restored identity"

def Leaf.validate (name : Chars) (leaf : Leaf) : Except String Unit := do
  leaf.original.identity.validate
  leaf.original.content.validate name
  forEach (Content.validate name) leaf.desired.toList
  forEach leaf.validateBackup leaf.backup.toList
  forEach leaf.validateCreated leaf.created.toList
  forEach leaf.validateRollback leaf.rollback.toList
  leaf.validatePhase

/-- The steps of a file: forward, and back from wherever it is. -/
def LeafPhase.allows : LeafPhase → LeafPhase → Bool
  | .original, next => next ∈ [LeafPhase.backupIntent, .rolledBack]
  | .backupIntent, next => next ∈ [LeafPhase.backedUp, .rolledBack]
  | .backedUp, next => next ∈ [LeafPhase.deleteIntent, .rolledBack]
  | .deleteIntent, next => next ∈ [LeafPhase.absent, .rolledBack]
  | .absent, next => next ∈ [LeafPhase.createIntent, .rollbackCreateIntent]
  | .createIntent, next => next ∈ [LeafPhase.created, .rollbackCreateIntent]
  | .created, next => next ∈ [LeafPhase.verified, .rollbackDeleteIntent]
  | .verified, next => next == .rollbackDeleteIntent
  | .rollbackDeleteIntent, next => next == .rollbackAbsent
  | .rollbackAbsent, next => next == .rollbackCreateIntent
  | .rollbackCreateIntent, next => next == .rollbackCreated
  | .rollbackCreated, next => next == .rolledBack
  | .rolledBack, _ => false

def Leaf.validateSuccessor (leaf previous : Leaf) : Except String Unit := do
  ensure (leaf.original = previous.original ∧ leaf.desired = previous.desired)
    "transaction changed a frozen original/replacement content fact"
  ensure (previous.backup = none ∨ previous.backup = leaf.backup) "durable backup binding changed"
  ensure ((previous.created = none ∨ previous.created = leaf.created) ∧
      (previous.rollback = none ∨ previous.rollback = leaf.rollback))
    "durable leaf identity changed"
  if leaf.phase = previous.phase then
    ensure (leaf = previous) "identity was added without its phase boundary"
  else do
    ensure (previous.phase.allows leaf.phase = true) "transaction skipped or rewound a leaf phase"
    ensure (previous.backup = none → leaf.backup.isSome = true →
        previous.phase = .backupIntent ∧ leaf.phase = .backedUp)
      "backup binding appeared without a recorded copy intent"
    ensure (previous.created = none → leaf.created.isSome = true →
        previous.phase = .createIntent ∧ leaf.phase = .created)
      "new identity appeared without its CreateNew intent"
    ensure (leaf.phase = .rolledBack → previous.phase ≠ .rollbackCreated →
        leaf.rollback = some leaf.original.identity)
      "untouched rollback must preserve the original exact object"

/-! ## Records -/

inductive Retention where
  | changed
  | unverifiable
deriving DecidableEq, Repr

inductive Phase where
  | accepted
  | backingUp
  | quiescing
  | ready
  | replacing
  | restoring
  | prepared
  | removing
  | removed
  | completed
  | rollingBack
  | rolledBack
deriving DecidableEq, Repr

inductive PathPhase where
  | planned
  | writeIntent
  | written
  | rollbackIntent
  | restored
  | retained
deriving DecidableEq, Repr

structure PathEdit where
  expected : PathValue
  desired : PathValue
  phase : PathPhase
deriving DecidableEq

structure Record where
  schema : Chars
  operationId : Chars
  kind : Kind
  protectedRequestSha256 : Chars
  sequence : Nat
  phase : Phase
  originalExecutable : Identity
  originalService : Option ServiceRestoreRecord
  currentService : Option ServiceRestoreRecord
  originalReceipt : Option Receipt
  newReceipt : Option Receipt
  originalPackage : Option PackageBinding
  completion : Option PackageBinding
  completionIdentity : Option Identity
  leaves : NameMap Leaf
  retained : NameMap Retention
  pathEdit : Option PathEdit
deriving DecidableEq

/-! ## The inventory of a record -/

/-- A package transaction has no files of its own. -/
def Record.validatePackage (record : Record) (request : Request) : Except String Unit :=
  ensure (record.originalReceipt = none ∧ record.newReceipt = none ∧ record.leaves.entries = [] ∧
      record.retained.entries = [] ∧ record.pathEdit = none ∧
      record.originalPackage = request.package)
    "package transaction cannot authorize standalone artifacts"

/-- Every payload is either owned or retained, and an owned one is that of the receipt. -/
def Record.validatePayload (record : Record) (receipt : Receipt) (name : Chars) :
    Except String Unit := do
  ensure ((record.leaves.get name).isSome ≠ (record.retained.get name).isSome)
    "payload missing or both owned and retained"
  ensure (∀ leaf ∈ record.leaves.get name,
    receipt.files.get name = some leaf.original.content.sha256)
    "original receipt and payload disagree"

/-- The desired bytes of a file are those of the new receipt, or of the receipt itself. -/
def validateDesired (sha256 : Chars → Chars) (new : Receipt) (name : Chars) (leaf : Leaf) :
    Except String Unit :=
  match leaf.desired with
  | none => throw "replacement inventory lacks desired bytes"
  | some desired =>
    ensure (if name = receiptName then
        desired.sha256 = sha256 new.toJson.print ∧ desired.bytes = new.toJson.size
      else new.files.get name = some desired.sha256)
      "new receipt and desired leaf content disagree"

def Record.validateReplacement (sha256 : Chars → Chars) (record : Record) (request : Request)
    (receipt : Receipt) : Except String Unit := do
  ensure (record.retained.entries = [] ∧ request.noService = false ∧ request.dashboard = false)
    "existing update accepts no fresh service choices or incomplete inventory"
  match record.newReceipt with
  | none => throw "replacement receipt missing"
  | some new => do
      new.validate request.sid receipt.directory request.target
      ensure (new.version = request.version ∧ new.archiveSha256 = request.archiveSha256)
        "new receipt differs from the protected verified release choice"
      if record.pathEdit = none then
        ensure (new.userPath = receipt.userPath)
          "update changed a frozen PATH ownership claim without a write plan"
      else
        ensure (request.kind = .install ∧ request.addToPath = true ∧ receipt.userPath = none)
          "existing PATH ownership cannot be rewritten by an update"
      forEach (fun entry => validateDesired sha256 new entry.1 entry.2) record.leaves.entries

def Record.validateRemoval (record : Record) (request : Request) (receipt : Receipt) :
    Except String Unit :=
  ensure (request.kind = .uninstall ∧ record.newReceipt = none ∧
      (∀ leaf ∈ record.leaves.values, leaf.desired = none) ∧ receipt.version = request.version ∧
      receipt.archiveSha256 = request.archiveSha256)
    "removal cannot stage replacement content"

def Record.validateStandalone (sha256 : Chars → Chars) (record : Record) (request : Request) :
    Except String Unit := do
  ensure (record.originalPackage = none) "standalone adopted package authority"
  match record.originalReceipt with
  | none => throw "fresh installation requires its separate typed registration rollback plan"
  | some receipt => do
      receipt.validate request.sid receipt.directory request.target
      let same ← samePath receipt.executable request.executable
      ensure (same = true) "foreign original receipt"
      ensure ((record.leaves.get executableName).isSome = true ∧
          (record.leaves.get receiptName).isSome = true ∧ record.leaves.length ≤ 7 ∧
          record.retained.length ≤ 5 ∧ record.retained.get executableName = none)
        "existing transaction lacks its mandatory executable/receipt inventory"
      forEach (record.validatePayload receipt) payloads
      ensure (∀ leaf ∈ record.leaves.get executableName,
          leaf.original.identity = record.originalExecutable)
        "original executable full identity differs from inventory"
      if request.kind = .install ∨ request.kind = .selfUpdate then
        record.validateReplacement sha256 request receipt
      else record.validateRemoval request receipt

/-- The recorded identities of all files, of one sort each. -/
def Record.originals (record : Record) : List Identity :=
  record.leaves.values.map (·.original.identity)

def Record.backups (record : Record) : List Identity :=
  record.leaves.values.filterMap fun leaf => leaf.backup.map (·.identity)

def Record.createds (record : Record) : List Identity := record.leaves.values.filterMap (·.created)

def Record.restoreds (record : Record) : List Identity :=
  record.leaves.values.filterMap (·.rollback)

/-- No recorded object is another one, unless a file was never touched. -/
def Record.validateIdentities (record : Record) : Except String Unit := do
  forEach (fun entry => Leaf.validate entry.1 entry.2) record.leaves.entries
  ensure record.originals.Nodup "duplicate original full object identity"
  ensure record.backups.Nodup "duplicate durable backup identity"
  ensure record.createds.Nodup "duplicate new full object identity"
  ensure record.restoreds.Nodup "duplicate restored full object identity"
  ensure ((∀ i ∈ record.originals, i ∉ record.backups) ∧
      (∀ i ∈ record.createds, i ∉ record.originals) ∧ (∀ i ∈ record.createds, i ∉ record.backups) ∧
      (∀ i ∈ record.restoreds, i ∉ record.backups) ∧ ∀ i ∈ record.restoreds, i ∉ record.createds)
    "future/backup identity aliases another recorded object"
  ensure (∀ leaf ∈ record.leaves.values, ∀ identity ∈ leaf.rollback, identity ∉ record.originals ∨
      (identity = leaf.original.identity ∧ leaf.phase = .rolledBack ∧ leaf.created = none))
    "restored identity adopted another original or an unconfirmed old leaf"

def Record.validateCompletion (record : Record) (request : Request) : Except String Unit := do
  ensure (∀ name ∈ record.retained.keys, name ∈ payloads) "unknown retention fact"
  ensure (record.completion.isSome = record.completionIdentity.isSome)
    "incomplete future package binding"
  match record.completion with
  | none => pure ()
  | some completion => do
      completion.validate
      forEach Identity.validate record.completionIdentity.toList
      match record.originalPackage with
      | none => throw "completion has no original package"
      | some original =>
        ensure (request.kind = .maintenancePrepare ∧ completion.packageId = original.packageId ∧
            completion.sourceId = original.sourceId ∧ completion.target = original.target ∧
            (record.phase = .restoring ∨ record.phase = .completed))
          "completion changed channel/source or precedes preparation"

/-- The PATH plan inserts or removes exactly what the receipt claims. -/
def Record.validatePathEdit (record : Record) (request : Request) (path : PathEdit) :
    Except String Unit := do
  validateWriteIntent request.sid path.expected path.desired
  let removal : Bool := request.kind == .uninstall
  match (if removal then record.originalReceipt else record.newReceipt) with
  | none => throw "PATH edit has no owned receipt"
  | some receipt =>
    match receipt.userPath with
    | none => throw "PATH edit has no literal owned insertion"
    | some claim =>
      let before : PathValue := ⟨claim.before, claim.beforeKind⟩
      let after : PathValue := ⟨some claim.after, some claim.afterKind⟩
      ensure (path.expected = (if removal then after else before) ∧
          path.desired = (if removal then before else after))
        "PATH plan differs from its exact raw value/kind receipt"

def Record.validateChannel (sha256 : Chars → Chars) (record : Record) (request : Request) :
    Except String Unit :=
  if request.kind.maintenance then record.validatePackage request
  else record.validateStandalone sha256 request

def Record.validateInventory (sha256 : Chars → Chars) (record : Record) (request : Request) :
    Except String Unit := do
  ensure (∀ name ∈ record.leaves.keys, name ∈ payloads ∨ name = receiptName)
    "unknown logical leaf name"
  record.validateChannel sha256 request
  record.validateIdentities
  record.validateCompletion request
  forEach (record.validatePathEdit request) record.pathEdit.toList

/-! ## The phases of a record -/

def Record.nextBinding (record : Record) (request : Request) : Except String (Chars × Identity) :=
  match record.phase with
  | .restoring =>
    if request.kind = .maintenancePrepare then
      match record.completion, record.completionIdentity with
      | some completion, some identity => pure (completion.executable, identity)
      | _, _ => throw "service restoration has no verified package completion"
    else
      match record.newReceipt, (record.leaves.get executableName).bind (·.created) with
      | none, _ => throw "service restoration has no durable new receipt"
      | some _, none => throw "service restoration has no durable created executable identity"
      | some new, some created => pure (new.executable, created)
  | .rollingBack => do
      ensure (∀ leaf ∈ record.leaves.values, leaf.phase = .rolledBack)
        "old-role restoration precedes complete verified original payloads/receipt"
      ensure (∀ path ∈ record.pathEdit, path.phase = .restored ∨ path.phase = .retained)
        "old-role restoration precedes confirmed conditional PATH rollback"
      match record.originalReceipt, (record.leaves.get executableName).bind (·.rollback) with
      | none, _ => throw "rollback has no verified original receipt"
      | some _, none => throw "rollback has no verified restored executable identity"
      | some original, some restored => pure (original.executable, restored)
  | _ => throw "service next binding has no matching restoration phase"

def Record.validateNextBinding (record : Record) (request : Request)
    (current : ServiceRestoreRecord) : Except String Unit :=
  if current.phase.isRestoring then do
    let (path, identity) ← record.nextBinding request
    match current.next with
    | none => throw "service restoration lacks its actual typed next path"
    | some next => do
        let same ← samePath next.path path
        identity.validate
        ensure (same = true ∧ next.volume = identity.volume ∧ next.file = identity.file)
          "service next path/full identity differs from the verified restoration inventory"
  else pure ()

/-- The service phases that go with a phase; a completed transaction is never admitted. -/
def Phase.allowsService : Phase → RestorePhase → Bool
  | .accepted, service | .backingUp, service => service == .snapshot
  | .quiescing, service => service ∈ [RestorePhase.snapshot, .quiescing, .quiescent]
  | .ready, service | .replacing, service | .prepared, service => service == .quiescent
  | .removing, service => service ∈ [RestorePhase.quiescent, .removing, .removed]
  | .restoring, service => service ∈ [RestorePhase.quiescent, .restoring, .restored]
  | .completed, _ => false
  | .removed, service => service == .removed
  | .rollingBack, service => service ∈ [RestorePhase.snapshot, .quiescent, .restoring, .restored]
  | .rolledBack, service => service == .snapshot

def Record.allLeaves (record : Record) (phases : List LeafPhase) : Bool :=
  record.leaves.values.all fun leaf => phases.contains leaf.phase

/-- The phases of the files that go with a phase; while rolling back every one does. -/
def Record.validateFiles (record : Record) (kind : Kind) : Except String Unit :=
  match record.phase with
  | .accepted => ensure (record.allLeaves [.original] = true) "premature leaf changes"
  | .backingUp =>
    ensure (record.allLeaves [.original, .backupIntent, .backedUp] = true)
      "backup phase contains destructive work"
  | .quiescing | .ready =>
    ensure (record.allLeaves [.backedUp] = true) "quiescence began before complete durable backups"
  | .replacing =>
    ensure ((kind = .install ∨ kind = .selfUpdate) ∧ record.allLeaves
        [.backedUp, .deleteIntent, .absent, .createIntent, .created, .verified] = true)
      "wrong replacement channel/leaf phase"
  | .restoring | .completed =>
    ensure (((kind = .install ∨ kind = .selfUpdate) ∧ record.allLeaves [.verified] = true) ∨
        (kind = .maintenancePrepare ∧ record.completion.isSome = true))
      "restoration precedes verified complete new bytes/receipt"
  | .prepared =>
    ensure (kind = .maintenancePrepare ∧ record.completion = none) "wrong preparation terminal"
  | .removing | .removed => do
      ensure (kind = .uninstall ∨ kind = .maintenanceRemove) "wrong removal channel"
      ensure (record.allLeaves [.backedUp, .deleteIntent, .absent] = true)
        "removal contains replacement/rollback work"
      ensure (record.phase = .removed → record.allLeaves [.absent] = true)
        "removal terminal retains an owned leaf"
  | .rollingBack => pure ()
  | .rolledBack =>
    ensure (record.allLeaves [.rolledBack] = true)
      "rollback terminal lacks verified original objects"

/-- The phases of the transaction that go with a phase of the PATH plan. -/
def PathPhase.allowedIn : PathPhase → Phase → Bool
  | .planned, phase => phase ∉ [Phase.restoring, .completed, .removed, .rolledBack]
  | .writeIntent, phase => phase ∈ [Phase.replacing, .removing, .rollingBack]
  | .written, phase =>
    phase ∈ [Phase.replacing, .removing, .restoring, .completed, .removed, .rollingBack]
  | .rollbackIntent, phase | .restored, phase => phase ∈ [Phase.rollingBack, .rolledBack]
  | .retained, phase => phase ∈ [Phase.removing, .removed, .rollingBack, .rolledBack]

def Record.validateLeafPhases (record : Record) (kind : Kind) : Except String Unit := do
  record.validateFiles kind
  ensure (∀ path ∈ record.pathEdit, path.phase.allowedIn record.phase = true)
    "PATH phase does not match transaction phase"
  ensure (record.phase = .completed ∨ record.phase = .removed →
      ∀ path ∈ record.pathEdit, path.phase = .written ∨ path.phase = .retained)
    "PATH terminal is uncertain"

/-! ## The check of a successor -/

def Phase.terminal (phase : Phase) : Bool := phase ∈ [.completed, .removed, .rolledBack]

/-- The steps of a transaction. -/
def Phase.allows : Phase → Phase → Bool
  | .accepted, next => next ∈ [Phase.backingUp, .quiescing, .rollingBack]
  | .backingUp, next => next ∈ [Phase.quiescing, .rollingBack]
  | .quiescing, next => next ∈ [Phase.ready, .rollingBack]
  | .ready, next => next ∈ [Phase.replacing, .removing, .prepared, .rollingBack]
  | .replacing, next => next ∈ [Phase.restoring, .rollingBack]
  | .prepared, next => next == .restoring
  | .restoring, next => next == .completed
  | .removing, next => next == .removed
  | .rollingBack, next => next == .rolledBack
  | .completed, _ | .removed, _ | .rolledBack, _ => false

def PathPhase.allows : PathPhase → PathPhase → Bool
  | .planned, next => next ∈ [PathPhase.writeIntent, .retained]
  | .writeIntent, next => next == .written
  | .written, next => next == .rollbackIntent
  | .rollbackIntent, next => next ∈ [PathPhase.restored, .retained]
  | .restored, _ | .retained, _ => false

/-- What never changes in a transaction. -/
def Record.sameOrigin (record previous : Record) : Prop :=
  record.schema = previous.schema ∧ record.operationId = previous.operationId ∧
    record.kind = previous.kind ∧
    record.protectedRequestSha256 = previous.protectedRequestSha256 ∧
    record.originalExecutable = previous.originalExecutable ∧
    record.originalService = previous.originalService ∧
    record.originalReceipt = previous.originalReceipt ∧ record.newReceipt = previous.newReceipt ∧
    record.originalPackage = previous.originalPackage ∧ record.retained = previous.retained ∧
    record.leaves.keys = previous.leaves.keys

instance (record previous : Record) : Decidable (record.sameOrigin previous) :=
  inferInstanceAs (Decidable (_ ∧ _))

/-- The number of files that differ. -/
def Record.changedLeaves (record previous : Record) : Nat :=
  (record.leaves.entries.zip previous.leaves.entries).countP fun (next, old) => next.2 ≠ old.2

def validateBoundCompletion (record previous : Record) : Except String Unit :=
  if previous.completion.isSome then
    ensure (record.completion = previous.completion ∧
        record.completionIdentity = previous.completionIdentity)
      "verified completion binding changed"
  else
    ensure (record.completion.isSome = true → previous.phase = .prepared ∧
      record.phase = .restoring) "package completion skipped prepared state"

/-- The PATH plan is frozen, and a step of it is the only change of its record. -/
def validatePathStep (others : Bool) (previous next : Option PathEdit) : Except String Unit :=
  match previous, next with
  | none, none => pure ()
  | some old, some next => do
      ensure (next.expected = old.expected ∧ next.desired = old.desired) "PATH plan changed"
      ensure (next.phase = old.phase ∨ old.phase.allows next.phase = true)
        "PATH skipped or rewound its phase"
      ensure (next.phase = old.phase ∨ others = false) "combined PATH and file/phase effects"
  | _, _ => throw "frozen optional PATH plan changed"

def Record.validateSuccessor (record : Record) (current : ServiceRestoreRecord)
    (previous : Record) : Except String Unit := do
  ensure (record.sequence = previous.sequence + 1 ∧ record.sameOrigin previous)
    "transaction sequence or frozen origin changed"
  match previous.currentService with
  | none => throw "previous frame lacks its real typed service record"
  | some prior => do
      current.validateSuccessor prior
      validateBoundCompletion record previous
      ensure ((record.phase = previous.phase ∧ record.phase.terminal = false) ∨
          previous.phase.allows record.phase = true)
        "transaction skipped or rewound its outer phase"
      forEach (fun pair : (Chars × Leaf) × (Chars × Leaf) => pair.1.2.validateSuccessor pair.2.2)
        (record.leaves.entries.zip previous.leaves.entries)
      let changed := record.changedLeaves previous
      ensure (changed ≤ 1 ∧ (changed = 0 ∨ record.phase = previous.phase) ∧
          (current = prior ∨ (changed = 0 ∧ record.phase = previous.phase)))
        "multiple leaf effects in one frame"
      validatePathStep (changed ≠ 0 ∨ current ≠ prior ∨ record.phase ≠ previous.phase)
        previous.pathEdit record.pathEdit

/-! ## The check of a record -/

/-- The first record is an unmodified snapshot. -/
def Record.isInitial (record : Record) : Prop :=
  record.sequence = 0 ∧ record.phase = .accepted ∧ record.originalService = record.currentService ∧
    record.completion = none ∧ (∀ leaf ∈ record.leaves.values, leaf.phase = .original) ∧
    ∀ path ∈ record.pathEdit, path.phase = .planned

instance (record : Record) : Decidable record.isInitial := inferInstanceAs (Decidable (_ ∧ _))

def schemaName : Chars := "locron.windows-transaction/v1".toList

def Record.validateService (record : Record) (request : Request)
    (original current : ServiceRestoreRecord) : Except String Unit := do
  original.validateForSid request.sid
  current.validateForSid request.sid
  record.originalExecutable.validate
  let same ← samePath original.previous.path request.executable
  ensure (original.phase = .snapshot ∧ original.sameOriginal current = true ∧
      original.previous.volume = record.originalExecutable.volume ∧
      original.previous.file = record.originalExecutable.file ∧ same = true)
    "service record differs from the frozen exact executable origin"

def Record.validate (sha256 : Chars → Chars) (record : Record) (previous : Option Record)
    (request : Request) (protectedRequestSha256 : Chars) : Except String Unit := do
  request.validate request.sid request.target request.operationId
  ensure (request.kind ≠ .recover ∧ request.kind ≠ .maintenanceComplete ∧
    record.schema = schemaName ∧
      record.operationId = request.operationId ∧ record.kind = request.kind ∧
      record.protectedRequestSha256 = protectedRequestSha256 ∧
      validHash protectedRequestSha256 = true ∧ record.sequence < 128)
    "transaction does not bind the protected original operation"
  match record.originalService, record.currentService with
  | none, _ => throw "existing transaction requires its real original service record"
  | some _, none => throw "existing transaction requires its real current service record"
  | some original, some current => do
      record.validateService request original current
      record.validateInventory sha256 request
      record.validateNextBinding request current
      ensure (record.phase.allowsService current.phase = true) "outer/service phase mismatch"
      record.validateLeafPhases request.kind
      match previous with
      | some previous => record.validateSuccessor current previous
      | none => ensure record.isInitial "initial transaction is not a complete unmodified snapshot"

end Locron.Windows
