import Locron.Windows.Transaction

set_option autoImplicit false

/-! # Accepted records

What it takes for a record to be accepted, by itself (`Record.Valid`) and after another one
(`Record.Follows`), and the journals that consist of accepted records (`Written`).
-/

namespace Locron.Windows

open Except

variable {sha256 : Chars → Chars} {request : Request} {digest : Chars}

/-! ## A single record -/

/-- The checks of a record that do not look at its predecessor. -/
structure Record.Valid (sha256 : Chars → Chars) (request : Request) (digest : Chars)
    (record : Record) (original current : ServiceRestoreRecord) : Prop where
  asked : request.validate request.sid request.target request.operationId = .ok ()
  bound : request.kind ≠ .recover ∧ request.kind ≠ .maintenanceComplete ∧
    record.schema = schemaName ∧
    record.operationId = request.operationId ∧ record.kind = request.kind ∧
    record.protectedRequestSha256 = digest ∧ validHash digest = true ∧ record.sequence < 128
  originalService : record.originalService = some original
  currentService : record.currentService = some current
  service : record.validateService request original current = .ok ()
  inventory : record.validateInventory sha256 request = .ok ()
  next : record.validateNextBinding request current = .ok ()
  allows : record.phase.allowsService current.phase = true
  phases : record.validateLeafPhases request.kind = .ok ()

structure Record.Follows (record : Record) (current : ServiceRestoreRecord) (previous : Record)
    (prior : ServiceRestoreRecord) : Prop where
  sequence : record.sequence = previous.sequence + 1
  origin : record.sameOrigin previous
  priorService : previous.currentService = some prior
  service : current.validateSuccessor prior = .ok ()
  completion : validateBoundCompletion record previous = .ok ()
  phase : (record.phase = previous.phase ∧ record.phase.terminal = false) ∨
    previous.phase.allows record.phase = true
  leaves : ∀ pair ∈ record.leaves.entries.zip previous.leaves.entries,
    pair.1.2.validateSuccessor pair.2.2 = .ok ()
  changed : record.changedLeaves previous ≤ 1 ∧
    (record.changedLeaves previous = 0 ∨ record.phase = previous.phase) ∧
    (current = prior ∨ (record.changedLeaves previous = 0 ∧ record.phase = previous.phase))
  path : validatePathStep (record.changedLeaves previous ≠ 0 ∨ current ≠ prior ∨
    record.phase ≠ previous.phase) previous.pathEdit record.pathEdit = .ok ()

theorem validateSuccessor_eq_ok {record previous : Record} {current : ServiceRestoreRecord} :
    record.validateSuccessor current previous = .ok () ↔
      ∃ prior, record.Follows current previous prior := by
  unfold Record.validateSuccessor
  cases hprior : previous.currentService with
  | none =>
    simp only [then_eq_ok, ensure_eq_ok]
    constructor
    · rintro ⟨-, h⟩
      cases h
    · rintro ⟨prior, h⟩
      cases hprior.symm.trans h.priorService
  | some prior =>
    simp only [then_eq_ok, ensure_eq_ok, forEach_eq_ok]
    constructor
    · rintro ⟨⟨hsequence, horigin⟩, hservice, hcompletion, hphase, hleaves, hchanged, hpath⟩
      exact ⟨prior, hsequence, horigin, hprior, hservice, hcompletion, hphase, hleaves, hchanged,
        hpath⟩
    · rintro ⟨prior', h⟩
      cases hprior.symm.trans h.priorService
      exact ⟨⟨h.sequence, h.origin⟩, h.service, h.completion, h.phase, h.leaves, h.changed, h.path⟩

/-- What is checked of a record against its predecessor, or in its place. -/
def Record.Begins (record : Record) (current : ServiceRestoreRecord) : Option Record → Prop
  | some previous => ∃ prior, record.Follows current previous prior
  | none => record.isInitial

theorem validate_eq_ok {record : Record} {previous : Option Record} :
    record.validate sha256 previous request digest = .ok () ↔
      ∃ original current, record.Valid sha256 request digest original current ∧
        record.Begins current previous := by
  unfold Record.validate
  simp only [then_eq_ok, ensure_eq_ok]
  cases horiginal : record.originalService with
  | none =>
    constructor
    · rintro ⟨-, -, h⟩
      cases h
    · rintro ⟨original, current, h, -⟩
      cases horiginal.symm.trans h.originalService
  | some original =>
    cases hcurrent : record.currentService with
    | none =>
      constructor
      · rintro ⟨-, -, h⟩
        cases h
      · rintro ⟨original, current, h, -⟩
        cases hcurrent.symm.trans h.currentService
    | some current =>
      have hbegins : (match previous with
          | some previous => record.validateSuccessor current previous
          | none => ensure record.isInitial
              "initial transaction is not a complete unmodified snapshot") = .ok () ↔
          record.Begins current previous := by
        cases previous with
        | none => exact ensure_eq_ok
        | some previous => exact validateSuccessor_eq_ok
      simp only [then_eq_ok, ensure_eq_ok]
      constructor
      · rintro ⟨hrequest, hbound, hservice, hinventory, hnext, hallows, hphases, hfirst⟩
        exact ⟨original, current, ⟨hrequest, hbound, horiginal, hcurrent, hservice, hinventory,
          hnext, hallows, hphases⟩, hbegins.mp hfirst⟩
      · rintro ⟨original', current', h, hfirst⟩
        cases horiginal.symm.trans h.originalService
        cases hcurrent.symm.trans h.currentService
        exact ⟨h.asked, h.bound, h.service, h.inventory, h.next, h.allows, h.phases,
          hbegins.mpr hfirst⟩

/-! ## The inventory -/

/-- The parts of the inventory check. -/
structure Record.Stocked (sha256 : Chars → Chars) (request : Request) (record : Record) : Prop where
  names : ∀ name ∈ record.leaves.keys, name ∈ payloads ∨ name = receiptName
  channel : record.validateChannel sha256 request = .ok ()
  identities : record.validateIdentities = .ok ()
  completion : record.validateCompletion request = .ok ()
  path : ∀ path ∈ record.pathEdit.toList, record.validatePathEdit request path = .ok ()

theorem validateInventory_eq_ok {record : Record} :
    record.validateInventory sha256 request = .ok () ↔ record.Stocked sha256 request := by
  unfold Record.validateInventory
  simp only [then_eq_ok, ensure_eq_ok, forEach_eq_ok]
  constructor
  · rintro ⟨hnames, hchannel, hidentities, hcompletion, hpath⟩
    exact ⟨hnames, hchannel, hidentities, hcompletion, hpath⟩
  · rintro ⟨hnames, hchannel, hidentities, hcompletion, hpath⟩
    exact ⟨hnames, hchannel, hidentities, hcompletion, hpath⟩

structure Record.Distinct (record : Record) : Prop where
  leaves : ∀ entry ∈ record.leaves.entries, Leaf.validate entry.1 entry.2 = .ok ()
  originals : record.originals.Nodup
  backups : record.backups.Nodup
  createds : record.createds.Nodup
  restoreds : record.restoreds.Nodup
  disjoint : (∀ i ∈ record.originals, i ∉ record.backups) ∧
    (∀ i ∈ record.createds, i ∉ record.originals) ∧ (∀ i ∈ record.createds, i ∉ record.backups) ∧
    (∀ i ∈ record.restoreds, i ∉ record.backups) ∧ ∀ i ∈ record.restoreds, i ∉ record.createds
  adopted : ∀ leaf ∈ record.leaves.values, ∀ identity ∈ leaf.rollback, identity ∉ record.originals ∨
    (identity = leaf.original.identity ∧ leaf.phase = .rolledBack ∧ leaf.created = none)

theorem validateIdentities_eq_ok {record : Record} :
    record.validateIdentities = .ok () ↔ record.Distinct := by
  unfold Record.validateIdentities
  simp only [then_eq_ok, ensure_eq_ok, forEach_eq_ok]
  constructor
  · rintro ⟨hleaves, horiginals, hbackups, hcreateds, hrestoreds, hdisjoint, hadopted⟩
    exact ⟨hleaves, horiginals, hbackups, hcreateds, hrestoreds, hdisjoint, hadopted⟩
  · rintro ⟨hleaves, horiginals, hbackups, hcreateds, hrestoreds, hdisjoint, hadopted⟩
    exact ⟨hleaves, horiginals, hbackups, hcreateds, hrestoreds, hdisjoint, hadopted⟩

section Valid

variable {record : Record} {original current : ServiceRestoreRecord}

theorem Record.Valid.stocked (h : record.Valid sha256 request digest original current) :
    record.Stocked sha256 request := validateInventory_eq_ok.mp h.inventory

theorem Record.Valid.distinct (h : record.Valid sha256 request digest original current) :
    record.Distinct := validateIdentities_eq_ok.mp h.stocked.identities

/-- A package transaction has no files. -/
theorem Record.Valid.noLeaves (h : record.Valid sha256 request digest original current)
    (hkind : request.kind.maintenance = true) : record.leaves.entries = [] := by
  have hchannel := h.stocked.channel
  unfold Record.validateChannel Record.validatePackage at hchannel
  rw [if_pos hkind, ensure_eq_ok] at hchannel
  exact hchannel.2.2.1

/-- The phases of the files go with the phase of the transaction. -/
theorem Record.Valid.files (h : record.Valid sha256 request digest original current) :
    record.validateFiles request.kind = .ok () := by
  have hphases := h.phases
  unfold Record.validateLeafPhases at hphases
  exact (then_eq_ok.mp hphases).1

end Valid

/-! ## Journals -/

/-- The journals that consist of accepted records, the newest one first. -/
inductive Written (sha256 : Chars → Chars) (request : Request) (digest : Chars) : List Record → Prop
  | first {record : Record} (h : record.validate sha256 none request digest = .ok ()) :
      Written sha256 request digest [record]
  | next {record previous : Record} {history : List Record}
      (hbefore : Written sha256 request digest (previous :: history))
      (h : record.validate sha256 (some previous) request digest = .ok ()) :
      Written sha256 request digest (record :: previous :: history)

theorem Written.valid {records : List Record} (h : Written sha256 request digest records) :
    ∀ record ∈ records, ∃ original current,
      record.Valid sha256 request digest original current := by
  induction h with
  | first hfirst =>
    intro record hmem
    obtain rfl := List.mem_singleton.mp hmem
    obtain ⟨original, current, hvalid, -⟩ := validate_eq_ok.mp hfirst
    exact ⟨original, current, hvalid⟩
  | next _ hnext ih =>
    intro record hmem
    rcases List.mem_cons.mp hmem with rfl | hmem
    · obtain ⟨original, current, hvalid, -⟩ := validate_eq_ok.mp hnext
      exact ⟨original, current, hvalid⟩
    · exact ih record hmem

end Locron.Windows
