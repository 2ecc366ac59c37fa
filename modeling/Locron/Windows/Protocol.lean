import Locron.Lib.NameMap
import Locron.Windows.Spelling

set_option autoImplicit false

/-! # Requests, receipts and package bindings

What a maintenance operation is asked to do and the facts about the installation it is asked to do
it to, with their checks and their JSON.
-/

namespace Locron.Windows

open Except (ensure forEach)

def object (fields : List (String × Json)) : Json :=
  .obj (fields.map fun (key, value) => (key.toList, value))

def nullable {α : Type} (toJson : α → Json) : Option α → Json
  | none => .null
  | some value => toJson value

/-! ## Package bindings -/

inductive Kind where
  | install
  | selfUpdate
  | uninstall
  | recover
  | maintenancePrepare
  | maintenanceComplete
  | maintenanceRemove
deriving DecidableEq, Repr

def Kind.maintenance : Kind → Bool
  | .maintenancePrepare | .maintenanceComplete | .maintenanceRemove => true
  | .install | .selfUpdate | .uninstall | .recover => false

structure PackageBinding where
  key : Chars
  packageId : Chars
  sourceId : Chars
  installLocation : Chars
  executable : Chars
  version : Chars
  target : Chars
  binarySha256 : Chars
  archiveSha256 : Chars
deriving DecidableEq

def nativeTarget (target : Chars) : Except String Unit :=
  ensure (target = "x86_64-pc-windows-msvc".toList ∨ target = "aarch64-pc-windows-msvc".toList)
    "unsupported native Windows target"

def PackageBinding.validate (binding : PackageBinding) : Except String Unit := do
  ensure (binding.packageId = "WhiteKiwi.locron".toList) "foreign package identifier"
  ensure (binding.key ≠ [] ∧ Json.utf8Length binding.key ≤ 255 ∧
      (∀ c ∈ binding.key, isControl c = false ∧ c ≠ '\\' ∧ c ≠ '/') ∧ binding.sourceId ≠ [] ∧
      Json.utf8Length binding.sourceId ≤ 255 ∧ ∀ c ∈ binding.sourceId, isControl c = false)
    "invalid package registration/source reference"
  stableVersion binding.version
  nativeTarget binding.target
  let location ← maintenancePath binding.installLocation
  let _ ← maintenancePath binding.executable
  let nested := location ++ "\\locron-v".toList ++ binding.version ++ ['-'] ++ binding.target ++
    "\\locron.exe".toList
  let registered ← sameAsOne binding.executable [nested, location ++ "\\locron.exe".toList]
  ensure (registered = true) "package executable escapes its registered location"
  ensure (validHash binding.binarySha256 = true ∧ validHash binding.archiveSha256 = true)
    "invalid canonical package digests"

/-! ## Requests -/

structure Request where
  schema : Chars
  operationId : Chars
  kind : Kind
  sid : Chars
  executable : Chars
  target : Chars
  version : Chars
  archiveSha256 : Chars
  helperSha256 : Chars
  callerPid : Option Nat
  noService : Bool
  dashboard : Bool
  addToPath : Bool
  stateRoot : Option Chars
  package : Option PackageBinding
  archiveFile : Option Chars
deriving DecidableEq

/-- The identifier that a staged archive is named by. -/
def archiveId (name : Chars) : Option Chars := do
  let rest ← "archive-".toList.isPrefixOf? name
  guard (rest.drop (rest.length - 4) = ".zip".toList ∧ isUuid (rest.take (rest.length - 4)) = true)
  some (rest.take (rest.length - 4))

def Request.validatePackage (request : Request) (package : PackageBinding) :
    Except String Unit := do
  package.validate
  let same ← samePath package.executable request.executable
  ensure (same = true ∧ package.target = request.target ∧ package.version = request.version ∧
      package.archiveSha256 = request.archiveSha256)
    "operation differs from its package registration binding"

def Request.validateArchive (request : Request) (name : Chars) : Except String Unit := do
  ensure (request.kind = .maintenanceComplete)
    "only package completion selects a fresh staged archive"
  match archiveId name with
  | none => throw "invalid staged archive name"
  | some id => ensure (canonicalUuid id = true) "noncanonical staged archive name"

def Request.validate (request : Request) (sid target operation : Chars) : Except String Unit := do
  ensure (request.schema = "locron.windows-operation/v1".toList ∧ canonicalUuid operation = true ∧
      request.operationId = operation ∧ request.sid = sid)
    "operation does not authorize this user/request directory"
  nativeTarget target
  ensure (request.target = target) "operation is not for this native architecture"
  stableVersion request.version
  let executable ← localPath request.executable
  ensure (eqIgnoreAsciiCase ((executable.splitOn '\\').getLastD []) "locron.exe".toList = true)
    "operation does not select locron.exe"
  ensure (validHash request.archiveSha256 = true ∧ validHash request.helperSha256 = true)
    "invalid operation digests"
  ensure (request.callerPid ≠ some 0) "invalid caller process identifier"
  forEach (fun root => (localPath root).map fun _ => ()) request.stateRoot.toList
  ensure (¬ (request.noService = true ∧ request.dashboard = true))
    "dashboard conflicts with disabled service roles"
  ensure (request.kind = .install ∨ (request.noService = false ∧ request.dashboard = false ∧
      request.addToPath = false ∧ request.stateRoot = none))
    "operation accepts no new-install options"
  ensure (request.addToPath = false ∨ ';' ∉ executable)
    "selected path cannot be represented in PATH"
  ensure (request.package.isSome = request.kind.maintenance) "operation/package channel mismatch"
  forEach request.validatePackage request.package.toList
  forEach request.validateArchive request.archiveFile.toList
  ensure (request.kind ≠ .maintenanceComplete ∨ request.archiveFile.isSome = true)
    "package completion requires its new staged archive"

/-! ## Receipts -/

def receiptName : Chars := ".locron-install-receipt-v1".toList

def executableName : Chars := "locron.exe".toList

def payloads : List Chars :=
  [executableName, "README.md".toList, "LICENSE-MIT".toList, "LICENSE-APACHE".toList,
    "uninstall.ps1".toList, ".locron-installer.ps1".toList]

inductive PathKind where
  | string
  | expandString
deriving DecidableEq, Repr

def PathKind.toJson : PathKind → Json
  | .string => .str "String".toList
  | .expandString => .str "ExpandString".toList

structure UserPath where
  before : Option Chars
  after : Chars
  beforeKind : Option PathKind
  afterKind : PathKind
deriving DecidableEq

def appendedPath (before : Option Chars) (directory : Chars) : Chars :=
  match before with
  | none | some [] => directory
  | some value =>
    if value.getLast? = some ';' then value ++ directory else value ++ ';' :: directory

def nul : Char := '\x00'

def UserPath.validate (path : UserPath) (directory : Chars) : Except String Unit := do
  ensure (path.before.isSome = path.beforeKind.isSome)
    "PATH record confuses an absent and present value"
  ensure (';' ∉ directory ∧ nul ∉ path.after) "PATH record contains an ambiguous directory/value"
  ensure (∀ value ∈ path.before, nul ∉ value) "PATH record contains a NUL"
  ensure (path.afterKind = path.beforeKind.getD .string)
    "PATH insertion changed the original registry kind"
  ensure (path.afterKind ≠ .expandString ∨ '%' ∉ directory)
    "literal installation directory would expand in PATH"
  ensure (path.after = appendedPath path.before directory)
    "PATH record is not one literal installer insertion"

def UserPath.toJson (path : UserPath) : Json :=
  object [("before", nullable .str path.before), ("after", .str path.after),
    ("before_kind", nullable PathKind.toJson path.beforeKind),
      ("after_kind", path.afterKind.toJson)]

structure Receipt where
  schema : Chars
  sid : Chars
  channel : Chars
  directory : Chars
  executable : Chars
  target : Chars
  version : Chars
  archiveUrl : Chars
  archiveSha256 : Chars
  binarySha256 : Chars
  files : NameMap Chars
  userPath : Option UserPath
deriving DecidableEq

/-- Where the archive of a release is published. -/
def releaseUrl (version target : Chars) : Chars :=
  "https://github.com/WhiteKiwi/locron/releases/download/v".toList ++ version ++ "/locron-v".toList
    ++ version ++ ['-'] ++ target ++ ".zip".toList

def Receipt.validate (receipt : Receipt) (sid directory target : Chars) : Except String Unit := do
  ensure (receipt.schema = "locron.install/windows-v1".toList ∧
      receipt.channel = "standalone".toList ∧ receipt.sid = sid)
    "receipt does not authorize this user and channel"
  ensure ((target = "x86_64-pc-windows-msvc".toList ∨ target = "aarch64-pc-windows-msvc".toList) ∧
      receipt.target = target)
    "receipt does not authorize this native architecture"
  stableVersion receipt.version
  let directory ← localPath directory
  let sameDirectory ← samePath receipt.directory directory
  ensure (sameDirectory = true) "receipt does not authorize this exact executable"
  let sameExecutable ← samePath receipt.executable (directory ++ "\\locron.exe".toList)
  ensure (sameExecutable = true) "receipt does not authorize this exact executable"
  ensure (receipt.archiveUrl = releaseUrl receipt.version receipt.target ∧
      validHash receipt.archiveSha256 = true ∧ validHash receipt.binarySha256 = true)
    "receipt has invalid canonical release digests"
  ensure (receipt.files.length = payloads.length ∧
      (∀ name ∈ payloads, ((receipt.files.get name).map validHash).getD false = true) ∧
      receipt.files.get executableName = some receipt.binarySha256)
    "receipt file inventory or executable digest disagrees"
  forEach (·.validate directory) receipt.userPath.toList

def Receipt.toJson (receipt : Receipt) : Json :=
  object [("schema", .str receipt.schema), ("sid", .str receipt.sid),
    ("channel", .str receipt.channel),
    ("directory", .str receipt.directory), ("executable", .str receipt.executable),
    ("target", .str receipt.target), ("version", .str receipt.version),
    ("archive_url", .str receipt.archiveUrl), ("archive_sha256", .str receipt.archiveSha256),
    ("binary_sha256", .str receipt.binarySha256),
    ("files", .obj (receipt.files.entries.map fun (name, hash) => (name, .str hash))),
    ("user_path", nullable UserPath.toJson receipt.userPath)]

/-! ## The PATH -/

structure PathValue where
  value : Option Chars
  kind : Option PathKind
deriving DecidableEq

def PathValue.toJson (path : PathValue) : Json :=
  object [("value", nullable .str path.value), ("kind", nullable PathKind.toJson path.kind)]

def PathValue.validate (path : PathValue) : Except String Unit := do
  ensure (path.value.isSome = path.kind.isSome)
    "persistent PATH confuses an absent and present value"
  ensure (∀ value ∈ path.value, nul ∉ value) "persistent PATH contains a NUL"
  ensure (path.toJson.size ≤ 128 * 1024) "persistent PATH exceeds the fixed reader bound"

/-- The check of `WriteIntent::new`. -/
def validateWriteIntent (sid : Chars) (expected desired : PathValue) : Except String Unit := do
  ensure (sid ≠ [] ∧ Json.utf8Length sid ≤ 184 ∧ ∀ c ∈ sid, c.toNat < 128)
    "PATH intent account is invalid"
  expected.validate
  desired.validate
  let intent := object [("schema", .str "locron.windows-path-write/v1".toList), ("sid", .str sid),
    ("expected", expected.toJson), ("desired", desired.toJson)]
  ensure (intent.size ≤ 64 * 1024)
    "complete conditional PATH intent exceeds the fixed adapter input bound"

end Locron.Windows
