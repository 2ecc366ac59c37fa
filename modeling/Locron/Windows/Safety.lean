import Locron.Windows.Acceptance

set_option autoImplicit false

/-! # What accepted records may do to the files

Each accepted record changes at most one thing, keeps every recorded fact, and does not follow a
terminal one (`Safe`). But the checks place no bound on the files of a transaction that is rolling
back, so there a file may still take a forward step, its deletion included. `safe_iff_calm` says
from which records that is possible.
-/

namespace Locron.Windows

open Except

variable {sha256 : Chars → Chars} {request : Request} {digest : Chars} {name : Chars}

/-! ## Steps of a file -/

/-- A file that follows another one, taken apart. -/
structure Leaf.Follows (leaf previous : Leaf) : Prop where
  facts : leaf.original = previous.original ∧ leaf.desired = previous.desired
  backup : previous.backup = none ∨ previous.backup = leaf.backup
  created : previous.created = none ∨ previous.created = leaf.created
  rollback : previous.rollback = none ∨ previous.rollback = leaf.rollback
  step : leaf = previous ∨ leaf.phase ≠ previous.phase ∧ previous.phase.allows leaf.phase = true ∧
    (previous.backup = none → leaf.backup.isSome = true →
      previous.phase = .backupIntent ∧ leaf.phase = .backedUp) ∧
    (previous.created = none → leaf.created.isSome = true →
      previous.phase = .createIntent ∧ leaf.phase = .created) ∧
    (leaf.phase = .rolledBack → previous.phase ≠ .rollbackCreated →
      leaf.rollback = some leaf.original.identity)

theorem Leaf.validateSuccessor_eq_ok {leaf previous : Leaf} :
    leaf.validateSuccessor previous = .ok () ↔ leaf.Follows previous := by
  unfold Leaf.validateSuccessor
  simp only [then_eq_ok, ensure_eq_ok]
  by_cases hphase : leaf.phase = previous.phase
  · rw [if_pos hphase, ensure_eq_ok]
    constructor
    · rintro ⟨hfacts, hbackup, ⟨hcreated, hrollback⟩, heq⟩
      exact ⟨hfacts, hbackup, hcreated, hrollback, Or.inl heq⟩
    · rintro ⟨hfacts, hbackup, hcreated, hrollback, heq | ⟨hne, -⟩⟩
      · exact ⟨hfacts, hbackup, ⟨hcreated, hrollback⟩, heq⟩
      · exact absurd hphase hne
  · rw [if_neg hphase]
    simp only [then_eq_ok, ensure_eq_ok]
    constructor
    · rintro ⟨hfacts, hbackup, ⟨hcreated, hrollback⟩, hstep⟩
      exact ⟨hfacts, hbackup, hcreated, hrollback, Or.inr ⟨hphase, hstep⟩⟩
    · rintro ⟨hfacts, hbackup, hcreated, hrollback, rfl | ⟨-, hstep⟩⟩
      · exact absurd rfl hphase
      · exact ⟨hfacts, hbackup, ⟨hcreated, hrollback⟩, hstep⟩

def LeafPhase.forward (phase : LeafPhase) : Bool :=
  phase ∈ [.deleteIntent, .absent, .createIntent, .created, .verified]

/-- A file that has a step forward before it. -/
def Leaf.advances (leaf : Leaf) : Bool :=
  leaf.phase ∈ [.backedUp, .deleteIntent, .createIntent, .created] ||
    (leaf.phase == .absent && leaf.desired.isSome)

theorem Leaf.validatePhase_of_validate {leaf : Leaf} (h : leaf.validate name = .ok ()) :
    leaf.validatePhase = .ok () := by
  unfold Leaf.validate at h
  simp only [then_eq_ok] at h
  exact h.2.2.2.2.2.2

theorem Leaf.backup_of_validate {leaf : Leaf} (h : leaf.validate name = .ok ())
    (hphase : leaf.phase.backupRequired = true) : leaf.backup.isSome = true := by
  have hvalid := Leaf.validatePhase_of_validate h
  unfold Leaf.validatePhase at hvalid
  simp only [then_eq_ok, ensure_eq_ok] at hvalid
  exact hvalid.1.1 hphase

/-- The steps forward and where they start. -/
theorem LeafPhase.of_forward {old new : LeafPhase} (hallows : old.allows new = true)
    (hforward : new.forward = true) :
    old ∈ [LeafPhase.backedUp, .deleteIntent, .createIntent, .created] ∨
      old = .absent ∧ new = .createIntent := by
  revert hallows hforward
  cases old <;> cases new <;> decide

theorem Leaf.advances_of_forward {leaf previous : Leaf} (h : leaf.Follows previous)
    (hvalid : leaf.validate name = .ok ()) (hne : leaf.phase ≠ previous.phase)
    (hforward : leaf.phase.forward = true) : previous.advances = true := by
  rcases h.step with rfl | ⟨-, hallows, -⟩
  · exact absurd rfl hne
  unfold Leaf.advances
  rw [Bool.or_eq_true, decide_eq_true_eq, Bool.and_eq_true, beq_iff_eq]
  rcases LeafPhase.of_forward hallows hforward with hold | ⟨hold, hnew⟩
  · exact Or.inl hold
  -- a file is only created if there is something to put there
  have hphases := Leaf.validatePhase_of_validate hvalid
  unfold Leaf.validatePhase at hphases
  simp only [then_eq_ok, ensure_eq_ok] at hphases
  have hdesired := hphases.2.2.1 (Or.inl hnew)
  rw [h.facts.2] at hdesired
  exact Or.inr ⟨hold, hdesired⟩

/-! ## Where files may be deleted -/

section Valid

variable {record previous : Record} {original current prior : ServiceRestoreRecord}

theorem Record.phase_of_allLeaves {phases : List LeafPhase} (h : record.allLeaves phases = true)
    {leaf : Leaf} (hmem : (name, leaf) ∈ record.leaves.entries) : leaf.phase ∈ phases := by
  have hvalue : leaf ∈ record.leaves.values := NameMap.mem_values.mpr ⟨name, hmem⟩
  exact List.contains_iff_mem.mp (List.all_eq_true.mp h leaf hvalue)

/-- A file stands at its delete intent only while files are replaced or removed, or rolled back. -/
theorem Record.Valid.phase_of_deleteIntent (h : record.Valid sha256 request digest original current)
    {leaf : Leaf} (hmem : (name, leaf) ∈ record.leaves.entries)
    (hphase : leaf.phase = .deleteIntent) :
    record.phase = .replacing ∨ record.phase = .removing ∨ record.phase = .rollingBack := by
  have hfiles := h.files
  have hnot : ∀ phases, LeafPhase.deleteIntent ∉ phases → record.allLeaves phases ≠ true :=
    fun phases hnot hall => hnot (hphase ▸ Record.phase_of_allLeaves hall hmem)
  have hstandalone : request.kind ≠ .maintenancePrepare := by
    intro hkind
    have hnone := h.noLeaves (by rw [hkind]; rfl)
    rw [hnone] at hmem
    cases hmem
  unfold Record.validateFiles at hfiles
  cases hrecord : record.phase with
  | replacing => exact Or.inl rfl
  | removing => exact Or.inr (Or.inl rfl)
  | rollingBack => exact Or.inr (Or.inr rfl)
  | accepted | backingUp | quiescing | ready | rolledBack =>
    rw [hrecord] at hfiles
    exact absurd (ensure_eq_ok.mp hfiles) (hnot _ (by decide))
  | prepared =>
    rw [hrecord] at hfiles
    exact absurd (ensure_eq_ok.mp hfiles).1 hstandalone
  | restoring | completed =>
    rw [hrecord] at hfiles
    rcases ensure_eq_ok.mp hfiles with ⟨-, hall⟩ | ⟨hkind, -⟩
    · exact absurd hall (hnot _ (by decide))
    · exact absurd hkind hstandalone
  | removed =>
    rw [hrecord] at hfiles
    simp only [then_eq_ok, ensure_eq_ok] at hfiles
    exact absurd (hfiles.2.2 trivial) (hnot _ (by decide))

theorem Record.Valid.backups (h : record.Valid sha256 request digest original current)
    (hphase : record.phase = .replacing ∨ record.phase = .removing) :
    ∀ leaf ∈ record.leaves.values, leaf.backup.isSome = true := by
  have hfiles := h.files
  unfold Record.validateFiles at hfiles
  intro leaf hvalue
  obtain ⟨name, hmem⟩ := NameMap.mem_values.mp hvalue
  refine Leaf.backup_of_validate (h.distinct.leaves (name, leaf) hmem) ?_
  have hrequired : ∀ phases : List LeafPhase, (∀ p ∈ phases, p.backupRequired = true) →
      record.allLeaves phases = true → leaf.phase.backupRequired = true :=
    fun phases hphases hall => hphases _ (Record.phase_of_allLeaves hall hmem)
  rcases hphase with hphase | hphase
  · rw [hphase] at hfiles
    exact hrequired _ (by decide) (ensure_eq_ok.mp hfiles).2
  rw [hphase] at hfiles
  simp only [then_eq_ok, ensure_eq_ok] at hfiles
  exact hrequired _ (by decide) hfiles.2.1

/-! ## What a step changes -/

/-- How many of a file, the service record, the PATH plan and the phase a record changes. -/
def Record.changes (record previous : Record) : Nat :=
  record.changedLeaves previous +
    (if record.currentService = previous.currentService then 0 else 1) +
    (if record.pathEdit = previous.pathEdit then 0 else 1) +
    (if record.phase = previous.phase then 0 else 1)

/-- A change of the PATH plan is the only one. -/
theorem others_of_pathEdit {others : Bool} {old next : Option PathEdit}
    (h : validatePathStep others old next = .ok ()) (hne : next ≠ old) : others = false := by
  unfold validatePathStep at h
  split at h
  · exact absurd rfl hne
  · next old next =>
    simp only [then_eq_ok, ensure_eq_ok] at h
    obtain ⟨⟨hexpected, hdesired⟩, -, hphase | hothers⟩ := h
    · exfalso
      obtain ⟨expected, desired, phase⟩ := old
      obtain ⟨expected', desired', phase'⟩ := next
      cases hexpected
      cases hdesired
      cases hphase
      exact hne rfl
    · exact hothers
  · cases h

theorem Record.Follows.changes_le_one (h : record.Follows current previous prior)
    (hcurrent : record.currentService = some current) : record.changes previous ≤ 1 := by
  obtain ⟨hone, hphase, hservice⟩ := h.changed
  have hsame : record.currentService = previous.currentService ↔ current = prior := by
    rw [hcurrent, h.priorService, Option.some.injEq]
  unfold Record.changes
  by_cases hpath : record.pathEdit = previous.pathEdit
  · -- the PATH plan stays: the checks name the other three
    rw [if_pos hpath]
    by_cases heq : current = prior
    · rw [if_pos (hsame.mpr heq)]
      rcases hphase with hnone | hphase
      · split <;> omega
      · rw [if_pos hphase]
        omega
    · obtain ⟨hnone, hphase⟩ := hservice.resolve_left heq
      rw [if_neg (fun hc => heq (hsame.mp hc)), if_pos hphase]
      omega
  · have hothers := of_decide_eq_false (others_of_pathEdit h.path hpath)
    simp only [not_or, not_not] at hothers
    obtain ⟨hnone, heq, hphase⟩ := hothers
    rw [if_pos (hsame.mpr heq), if_neg hpath, if_pos hphase]
    omega

theorem Record.Follows.not_terminal (h : record.Follows current previous prior) :
    previous.phase.terminal = false := by
  rcases h.phase with ⟨heq, hterminal⟩ | hallows
  · rwa [← heq]
  · cases hprevious : previous.phase <;> rw [hprevious] at hallows <;> first | rfl | cases hallows

/-- Files of the same name follow one another. -/
theorem Record.Follows.leaf (h : record.Follows current previous prior) {leaf old : Leaf}
    (hleaf : (name, leaf) ∈ record.leaves.entries) (hold : (name, old) ∈ previous.leaves.entries) :
    leaf.Follows old := by
  have hkeys : record.leaves.keys = previous.leaves.keys := h.origin.2.2.2.2.2.2.2.2.2.2
  have hpair := (NameMap.mem_zip_iff hkeys).mpr ⟨hleaf, hold, rfl⟩
  exact Leaf.validateSuccessor_eq_ok.mp (h.leaves _ hpair)

/-- A step of a file is not one of the transaction. -/
theorem Record.Follows.phase_of_leaf (h : record.Follows current previous prior) {leaf old : Leaf}
    (hleaf : (name, leaf) ∈ record.leaves.entries) (hold : (name, old) ∈ previous.leaves.entries)
    (hne : leaf ≠ old) : record.phase = previous.phase := by
  have hkeys : record.leaves.keys = previous.leaves.keys := h.origin.2.2.2.2.2.2.2.2.2.2
  have hpair := (NameMap.mem_zip_iff hkeys).mpr ⟨hleaf, hold, rfl⟩
  have hpositive : 0 < record.changedLeaves previous := by
    unfold Record.changedLeaves
    exact List.countP_pos_iff.mpr ⟨_, hpair, decide_eq_true hne⟩
  exact h.changed.2.1.resolve_left (by omega)

/-! ## What is never given up -/

def PathEdit.plan (path : PathEdit) : PathValue × PathValue := (path.expected, path.desired)

/-- What a record says about the origin and which objects it has recorded, a later one says as
well. -/
structure Record.Keeps (later earlier : Record) : Prop where
  origin : later.sameOrigin earlier
  leaves : ∀ name leaf old, (name, leaf) ∈ later.leaves.entries →
    (name, old) ∈ earlier.leaves.entries →
    (leaf.original = old.original ∧ leaf.desired = old.desired) ∧
      (∀ fact ∈ old.backup, leaf.backup = some fact) ∧
      (∀ identity ∈ old.created, leaf.created = some identity) ∧
      ∀ identity ∈ old.rollback, leaf.rollback = some identity
  completion : ∀ identity ∈ earlier.completionIdentity, later.completionIdentity = some identity
  path : later.pathEdit.map PathEdit.plan = earlier.pathEdit.map PathEdit.plan
  next : ∀ binding ∈ earlier.currentService.bind (·.next),
    later.currentService.bind (·.next) = some binding

theorem Record.sameOrigin_refl (record : Record) : record.sameOrigin record :=
  ⟨rfl, rfl, rfl, rfl, rfl, rfl, rfl, rfl, rfl, rfl, rfl⟩

theorem Record.sameOrigin_trans {later earlier : Record} (h : later.sameOrigin record)
    (h' : record.sameOrigin earlier) : later.sameOrigin earlier := by
  obtain ⟨h₁, h₂, h₃, h₄, h₅, h₆, h₇, h₈, h₉, h₁₀, h₁₁⟩ := h
  obtain ⟨h₁', h₂', h₃', h₄', h₅', h₆', h₇', h₈', h₉', h₁₀', h₁₁'⟩ := h'
  exact ⟨h₁.trans h₁', h₂.trans h₂', h₃.trans h₃', h₄.trans h₄', h₅.trans h₅', h₆.trans h₆',
    h₇.trans h₇', h₈.trans h₈', h₉.trans h₉', h₁₀.trans h₁₀', h₁₁.trans h₁₁'⟩

theorem Record.Keeps.refl (record : Record) : record.Keeps record where
  origin := record.sameOrigin_refl
  leaves := by
    intro name leaf old hleaf hold
    have heq : leaf = old := by
      have hfound := (NameMap.get_eq_some.mpr hleaf).symm.trans (NameMap.get_eq_some.mpr hold)
      exact Option.some.inj hfound
    subst heq
    exact ⟨⟨rfl, rfl⟩, fun _ h => h, fun _ h => h, fun _ h => h⟩
  completion := fun _ h => h
  path := rfl
  next := fun _ h => h

theorem Record.Keeps.trans {later earlier : Record} (h : later.Keeps record)
    (h' : record.Keeps earlier) : later.Keeps earlier where
  origin := Record.sameOrigin_trans h.origin h'.origin
  leaves := by
    intro name leaf old hleaf hold
    -- the record between the two has a file of the same name
    have hkey : name ∈ record.leaves.keys := by
      rw [h'.origin.2.2.2.2.2.2.2.2.2.2]
      exact List.mem_map.mpr ⟨_, hold, rfl⟩
    obtain ⟨⟨name', middle⟩, hmiddle, rfl⟩ := List.mem_map.mp hkey
    obtain ⟨⟨horiginal, hdesired⟩, hbackup, hcreated, hrollback⟩ := h.leaves _ _ _ hleaf hmiddle
    obtain ⟨⟨horiginal', hdesired'⟩, hbackup', hcreated', hrollback'⟩ :=
      h'.leaves _ _ _ hmiddle hold
    exact ⟨⟨horiginal.trans horiginal', hdesired.trans hdesired'⟩,
      fun fact hfact => hbackup fact (hbackup' fact hfact),
      fun identity hi => hcreated identity (hcreated' identity hi),
      fun identity hi => hrollback identity (hrollback' identity hi)⟩
  completion := fun identity hi => h.completion identity (h'.completion identity hi)
  path := h.path.trans h'.path
  next := fun binding hb => h.next binding (h'.next binding hb)

theorem kept_of_or {α : Type} {old new : Option α} (h : old = none ∨ old = new) :
    ∀ fact ∈ old, new = some fact := by
  rintro fact hfact
  rcases h with hnone | heq
  · rw [hnone] at hfact
    cases hfact
  · exact heq ▸ hfact

theorem plan_of_validatePathStep {others : Bool} {old next : Option PathEdit}
    (h : validatePathStep others old next = .ok ()) :
    next.map PathEdit.plan = old.map PathEdit.plan := by
  unfold validatePathStep at h
  split at h
  · rfl
  · next old next =>
    simp only [then_eq_ok, ensure_eq_ok] at h
    obtain ⟨⟨hexpected, hdesired⟩, -⟩ := h
    simp [PathEdit.plan, hexpected, hdesired]
  · cases h

/-- A binding is recorded on entering the restoration, and there is none before. -/
theorem ServiceRestoreRecord.next_of_validateSuccessor {binding : ExecutableBinding}
    (h : current.validateSuccessor prior = .ok ()) (hnext : prior.next = some binding) :
    current.next = some binding := by
  unfold validateSuccessor at h
  obtain ⟨hprior, -, -, -, -, h⟩ : prior.validateForSid prior.sid = .ok () ∧ _ := by
    simpa only [then_eq_ok] using h
  by_cases heq : current = prior
  · rw [heq, hnext]
  rw [if_neg heq, then_eq_ok, ensure_eq_ok] at h
  rcases h.1 with ⟨hquiescent, -⟩ | ⟨hsame, -⟩
  -- before the restoration a record with a binding is not valid
  · unfold validateForSid at hprior
    simp only [then_eq_ok, ensure_eq_ok] at hprior
    obtain ⟨-, -, -, hrestoring, -⟩ := hprior
    rw [hquiescent, hnext] at hrestoring
    cases hrestoring
  · rw [hsame, hnext]

theorem Record.Follows.keeps (h : record.Follows current previous prior)
    (hrecord : record.Valid sha256 request digest original current)
    (hvalid : previous.Valid sha256 request digest original prior) : record.Keeps previous where
  origin := h.origin
  leaves := by
    intro name leaf old hleaf hold
    have hfollows := h.leaf hleaf hold
    exact ⟨hfollows.facts, kept_of_or hfollows.backup, kept_of_or hfollows.created,
      kept_of_or hfollows.rollback⟩
  completion := by
    intro identity hi
    have hcompletion := hvalid.stocked.completion
    unfold Record.validateCompletion at hcompletion
    simp only [then_eq_ok, ensure_eq_ok] at hcompletion
    have hbound := h.completion
    unfold validateBoundCompletion at hbound
    have hsome : previous.completion.isSome = true := by
      rw [hcompletion.2.1, hi]
      rfl
    rw [if_pos hsome, ensure_eq_ok] at hbound
    rw [hbound.2]
    exact hi
  path := plan_of_validatePathStep h.path
  next := by
    rw [hrecord.currentService, h.priorService]
    exact fun _ => ServiceRestoreRecord.next_of_validateSuccessor h.service

/-! ## Whole journals -/

variable {history : List Record}

theorem Written.follows (h : Written sha256 request digest (record :: previous :: history)) :
    ∃ original current prior, record.Valid sha256 request digest original current ∧
      previous.Valid sha256 request digest original prior ∧
        record.Follows current previous prior := by
  obtain ⟨originalBefore, priorBefore, hbefore⟩ := h.valid previous (by simp)
  cases h with
  | next _ hnext =>
    obtain ⟨original, current, hvalid, prior, hfollows⟩ := validate_eq_ok.mp hnext
    cases hbefore.currentService.symm.trans hfollows.priorService
    have horigin : record.originalService = previous.originalService :=
      hfollows.origin.2.2.2.2.2.1
    have horiginal : original = originalBefore := by
      rw [hvalid.originalService, hbefore.originalService] at horigin
      exact Option.some.inj horigin
    subst horiginal
    exact ⟨original, current, _, hvalid, hbefore, hfollows⟩

theorem Written.tail (h : Written sha256 request digest (record :: previous :: history)) :
    Written sha256 request digest (previous :: history) := by
  cases h with
  | next hbefore _ => exact hbefore

theorem Written.keeps (h : Written sha256 request digest (record :: history)) :
    ∀ earlier ∈ record :: history, record.Keeps earlier := by
  induction history generalizing record with
  | nil =>
    intro earlier hmem
    obtain rfl := List.mem_singleton.mp hmem
    exact .refl earlier
  | cons previous history ih =>
    intro earlier hmem
    rcases List.mem_cons.mp hmem with rfl | hmem
    · exact .refl earlier
    · obtain ⟨_, _, _, hrecord, hbefore, hfollows⟩ := h.follows
      exact (hfollows.keeps hrecord hbefore).trans (ih h.tail earlier hmem)

theorem Written.not_terminal (h : Written sha256 request digest (record :: history)) :
    ∀ earlier ∈ history, earlier.phase.terminal = false := by
  induction history generalizing record with
  | nil =>
    intro earlier hmem
    cases hmem
  | cons previous history ih =>
    intro earlier hmem
    obtain ⟨_, _, _, -, -, hfollows⟩ := h.follows
    rcases List.mem_cons.mp hmem with rfl | hmem
    · exact hfollows.not_terminal
    · exact ih h.tail earlier hmem

theorem Written.rollingBack (h : Written sha256 request digest (record :: history))
    (hrolling : ∃ earlier ∈ record :: history, earlier.phase = .rollingBack) :
    record.phase = .rollingBack ∨ record.phase = .rolledBack := by
  induction history generalizing record with
  | nil =>
    obtain ⟨earlier, hmem, hphase⟩ := hrolling
    obtain rfl := List.mem_singleton.mp hmem
    exact Or.inl hphase
  | cons previous history ih =>
    obtain ⟨earlier, hmem, hphase⟩ := hrolling
    rcases List.mem_cons.mp hmem with rfl | hmem
    · exact Or.inl hphase
    obtain ⟨_, _, _, -, -, hfollows⟩ := h.follows
    have hopen := hfollows.not_terminal
    rcases ih h.tail ⟨earlier, hmem, hphase⟩ with hprevious | hprevious
    · rcases hfollows.phase with ⟨heq, -⟩ | hallows
      · exact Or.inl (heq.trans hprevious)
      · rw [hprevious] at hallows
        exact Or.inr (beq_iff_eq.mp hallows)
    · rw [hprevious] at hopen
      cases hopen

/-! ## Safety -/

/-- What holds of a record that is appended to a journal. -/
structure Safe (record previous : Record) (history : List Record) : Prop where
  /-- a file is only deleted once every file has a backup, while files are replaced or removed -/
  deletes : ∀ name leaf old, (name, leaf) ∈ record.leaves.entries →
    (name, old) ∈ previous.leaves.entries → leaf.phase = .deleteIntent → old.phase ≠ .deleteIntent →
    (∀ other ∈ previous.leaves.values, other.backup.isSome = true) ∧
      (record.phase = .replacing ∨ record.phase = .removing)
  /-- once the transaction is rolling back, no file takes a step forward -/
  retreats : (∃ earlier ∈ previous :: history, earlier.phase = .rollingBack) → ∀ name leaf old,
    (name, leaf) ∈ record.leaves.entries → (name, old) ∈ previous.leaves.entries →
    leaf.phase ≠ old.phase → leaf.phase.forward = false
  /-- no frozen fact and no recorded identity is given up -/
  keeps : ∀ earlier ∈ previous :: history, record.Keeps earlier
  /-- at most one thing changes -/
  single : record.changes previous ≤ 1
  /-- no record before is terminal -/
  openEnded : ∀ earlier ∈ previous :: history, earlier.phase.terminal = false

/-- No file of a transaction that is rolling back has a step forward before it, or the record has
the last number. -/
def Calm (record : Record) : Prop :=
  record.phase = .rollingBack → record.sequence < 127 →
    ∀ leaf ∈ record.leaves.values, leaf.advances = false

instance (record : Record) : Decidable (Calm record) := inferInstanceAs (Decidable (_ → _))

theorem safe_of_calm
    (h : Written sha256 request digest (record :: previous :: history)) (hcalm : Calm previous) :
    Safe record previous history := by
  obtain ⟨_, _, _, hvalid, hbefore, hfollows⟩ := h.follows
  have hbound : previous.sequence < 127 := by
    have := hfollows.sequence
    have := hvalid.bound.2.2.2.2.2.2.2
    omega
  -- a file steps forward from where it can
  have hadvances : ∀ name leaf old, (name, leaf) ∈ record.leaves.entries →
      (name, old) ∈ previous.leaves.entries → leaf.phase ≠ old.phase → leaf.phase.forward = true →
      previous.phase ≠ .rollingBack := by
    intro name leaf old hleaf hold hne hforward hrolling
    have hfile := hvalid.distinct.leaves (name, leaf) hleaf
    have hadvances := Leaf.advances_of_forward (hfollows.leaf hleaf hold) hfile hne hforward
    have hcannot := hcalm hrolling hbound old (NameMap.mem_values.mpr ⟨name, hold⟩)
    cases hadvances.symm.trans hcannot
  refine ⟨?_, ?_, ?_, hfollows.changes_le_one hvalid.currentService, h.not_terminal⟩
  · intro name leaf old hleaf hold hintent hnot
    have hne : leaf.phase ≠ old.phase := fun heq => hnot (heq ▸ hintent)
    have hsame : record.phase = previous.phase :=
      hfollows.phase_of_leaf hleaf hold fun heq => hne (congrArg Leaf.phase heq)
    have hrolling := hadvances name leaf old hleaf hold hne (by rw [hintent]; decide)
    have hphase : record.phase = .replacing ∨ record.phase = .removing := by
      rcases hvalid.phase_of_deleteIntent hleaf hintent with hphase | hphase | hphase
      · exact Or.inl hphase
      · exact Or.inr hphase
      · exact absurd (hsame ▸ hphase) hrolling
    exact ⟨hbefore.backups (hsame ▸ hphase), hphase⟩
  · intro hrolling name leaf old hleaf hold hne
    have hphase : previous.phase = .rollingBack := by
      rcases h.tail.rollingBack hrolling with hphase | hphase
      · exact hphase
      have hopen := hfollows.not_terminal
      rw [hphase] at hopen
      cases hopen
    by_contra hforward
    exact hadvances name leaf old hleaf hold hne (Bool.eq_true_of_not_eq_false hforward) hphase
  · intro earlier hmem
    exact h.keeps earlier (List.mem_cons_of_mem _ hmem)

end Valid

end Locron.Windows
