import Locron.Daemon.Disk

set_option autoImplicit false

/-! # The orphan sweep

Maintenance walks over the output files, asks the database whether an artifact is recorded under the
path of the file, and removes files that are recorded nowhere and were not modified for an hour. The
attempts run meanwhile: a runner writes the partial file of its attempt, renames it, and only then
is the new path recorded. The two tests and the removal are separate actions of the machine below.

A file is *spared* if its attempt has an artifact that is not pruned. The sweep does remove such
files (`OrphanSweep.removes_output_of_known_attempt`): a renamed file is recorded nowhere until the
outcome is committed, and renaming does not change its modification time. It never does if every
spared file whose age it reads is younger than the grace period
(`OrphanSweep.removes_only_orphans`).
-/

namespace Locron

/-- An hour, in microseconds. -/
def orphanGrace : Int := 3600000000

/-- Some artifact of the run is recorded under the path. -/
def Store.outputArtifactReferences (s : Store) (run : Uuid) (path : String) : Bool :=
  s.outputs.exist (fun o => o.runId = run && o.relativePath = path)

/-- The names that the sweep looks at: attempts are numbered from one, in 16 bits. -/
def OutputName.canonical (name : OutputName) : Bool := 0 < name.number && name.number ≤ 65535

inductive SweepPhase where
  | idle
  /-- no artifact was recorded under the path of the file -/
  | unreferenced (name : OutputName) (cutoff : Int)
  /-- the file was found old enough, too: it is removed next -/
  | aged (name : OutputName)
deriving DecidableEq, Repr

structure OrphanSweep extends Disk where
  sweep : SweepPhase

inductive SweepAction where
  | commit (op : Op)
  /-- the runner of an attempt creates its partial file -/
  | create (run : Uuid) (number : Nat) (modified : Int)
  /-- a file is written to, or its modification time is set -/
  | modify (name : OutputName) (modified : Int)
  /-- the partial file of an attempt is renamed, by its runner or by recovery -/
  | rename (run : Uuid) (number : Nat)
  /-- a file is removed by something else -/
  | unlink (name : OutputName)
  | lookUp (name : OutputName) (now : Int)
  | readAge
  | remove
  /-- the pass ends, or fails -/
  | leave

def SweepAction.operation : SweepAction → Option Op
  | .commit op => some op
  | _ => none

namespace OrphanSweep

def initial : OrphanSweep := { Disk.initial with sweep := .idle }

def act (m : OrphanSweep) : SweepAction → Option OrphanSweep
  | .commit op => (m.commit op).map (fun d => { m with toDisk := d })
  | .create run number modified =>
    if (m.store.outputs.find (run, number)).isSome then
      some { m with toDisk := m.setFile ⟨run, number, false⟩ (some modified) }
    else none
  | .modify name modified =>
    if (m.files name).isSome then some { m with toDisk := m.setFile name (some modified) }
    else none
  | .rename run number =>
    if (m.files ⟨run, number, false⟩).isSome then some { m with
      toDisk := (m.setFile ⟨run, number, true⟩ (m.files ⟨run, number, false⟩)).setFile
        ⟨run, number, false⟩ none }
    else none
  | .unlink name => some { m with toDisk := m.setFile name none }
  | .lookUp name now =>
    if (m.files name).isSome ∧ name.canonical ∧ orphanGrace ≤ now ∧
        m.store.outputArtifactReferences name.run name.relativePath = false then
      some { m with sweep := .unreferenced name (now - orphanGrace) }
    else none
  | .readAge =>
    match m.sweep with
    | .unreferenced name cutoff =>
      match m.files name with
      | some modified => if modified ≤ cutoff then some { m with sweep := .aged name } else none
      | none => none
    | _ => none
  | .remove =>
    match m.sweep with
    | .aged name => some { m with toDisk := m.setFile name none, sweep := .idle }
    | _ => none
  | .leave => some { m with sweep := .idle }

/-- The operations are those of the system. -/
def issues (m : OrphanSweep) (a : SweepAction) : Prop := ∀ op ∈ a.operation, m.Issues op

/-- The attempt of the file has an artifact that is not pruned. -/
def Spared (m : OrphanSweep) (name : OutputName) : Prop :=
  ∃ o, m.store.outputs.find name.key = some o ∧ o.state ≠ .pruned

/-- A spared file whose age is read is younger than the grace period. -/
def youngIfSpared (m : OrphanSweep) : SweepAction → Prop
  | .readAge => ∀ name cutoff, m.sweep = .unreferenced name cutoff → m.Spared name →
      ∀ modified, m.files name = some modified → cutoff < modified
  | _ => True

def Reaches (allowed : OrphanSweep → SweepAction → Prop) (m : OrphanSweep) : Prop :=
  Runs.Reaches act (fun m a => m.issues a ∧ allowed m a) (· = initial) m

end OrphanSweep

/-! ## Files and their attempts -/

theorem OutputStep.stays_pruned {s : Store} {op : Op} {k : Uuid × Nat} {row row' : OutputRow}
    (h : OutputStep s op k (some row) (some row')) (hstate : row.state = .pruned) :
    row'.state = .pruned := by
  rcases h.of_settled (by simp [OutputRow.isOpen, hstate]) (by simp [hstate]) with rfl | hpruned
  · exact hstate
  · exact hpruned

namespace Disk

variable {d d' : Disk} {op : Op} {k : Uuid × Nat}

/-- The attempt has an artifact, or had one that was deleted with its run. -/
def Attributed (d : Disk) (k : Uuid × Nat) : Prop :=
  d.Deleted k.1 ∨ ∃ o, d.store.outputs.find k = some o

/-- The artifact is pruned, or deleted with its run. -/
def Dispensable (d : Disk) (k : Uuid × Nat) : Prop :=
  d.Deleted k.1 ∨ ∃ o, d.store.outputs.find k = some o ∧ o.state = .pruned

theorem Attributed.commit (h : d.Sound) (hop : d.Issues op) (hcommit : d.commit op = some d')
    (hk : d.Attributed k) : d'.Attributed k := by
  rcases hk with hdeleted | ⟨o, ho⟩
  · exact Or.inl (hdeleted.commit h hop hcommit)
  rcases h.artifact_commit hop hcommit ho with hdeleted | ⟨o', ho', -⟩
  · exact Or.inl hdeleted
  · exact Or.inr ⟨o', ho'⟩

theorem Dispensable.commit (h : d.Sound) (hop : d.Issues op) (hcommit : d.commit op = some d')
    (hk : d.Dispensable k) : d'.Dispensable k := by
  rcases hk with hdeleted | ⟨o, ho, hstate⟩
  · exact Or.inl (hdeleted.commit h hop hcommit)
  rcases h.artifact_commit hop hcommit ho with hdeleted | ⟨o', ho', hstep⟩
  · exact Or.inl hdeleted
  · exact Or.inr ⟨o', ho', hstep.stays_pruned hstate⟩

end Disk

/-! ## Only orphans -/

namespace OrphanSweep

variable {m m' : OrphanSweep}

/-- What the sweep knows about the file it is at. -/
def Known (m : OrphanSweep) : Prop :=
  match m.sweep with
  | .idle => True
  | .unreferenced name _ => m.Attributed name.key
  | .aged name => m.Dispensable name.key

structure Attended (m : OrphanSweep) : Prop where
  sound : m.Sound
  files : ∀ name, (m.files name).isSome = true → m.Attributed name.key
  known : m.Known

theorem attended_initial : initial.Attended :=
  ⟨Disk.sound_initial, fun _ h => (Bool.false_ne_true h).elim, trivial⟩

/-- A file is added or changed for an attempt that has or had an artifact. -/
theorem Attended.setFile (h : m.Attended) (name : OutputName) (modified : Option Int)
    (hname : modified.isSome = true → m.Attributed name.key) :
    Attended { m with toDisk := m.setFile name modified } := by
  refine ⟨⟨h.sound.reachable, h.sound.used, h.sound.owned⟩, fun other hother => ?_, h.known⟩
  by_cases heq : other = name
  · subst heq
    refine hname ?_
    have hfile : (Function.update m.files other modified other).isSome = true := hother
    rwa [Function.update_self] at hfile
  · refine h.files other ?_
    have hfile : (Function.update m.files name modified other).isSome = true := hother
    rwa [Function.update_of_ne heq] at hfile

theorem Attended.commit {op : Op} {d : Disk} (h : m.Attended) (hop : m.Issues op)
    (hd : m.commit op = some d) : Attended { m with toDisk := d } := by
  refine ⟨h.sound.commit hop hd, fun name hname => ?_, ?_⟩
  · obtain ⟨s, -, rfl⟩ := Disk.commit_eq_some hd
    exact (h.files name hname).commit h.sound hop hd
  · have hknown := h.known
    unfold Known at hknown ⊢
    dsimp only
    split
    · trivial
    · next name cutoff heq =>
      rw [heq] at hknown
      exact Disk.Attributed.commit h.sound hop hd hknown
    next name heq =>
    rw [heq] at hknown
    exact Disk.Dispensable.commit h.sound hop hd hknown

theorem readAge_eq_some (hact : m.act .readAge = some m') :
    ∃ name cutoff modified, m.sweep = .unreferenced name cutoff ∧ m.files name = some modified ∧
      modified ≤ cutoff ∧ m' = { m with sweep := .aged name } := by
  simp only [act] at hact
  split at hact
  · next name cutoff hphase =>
    split at hact
    · next modified hmodified =>
      obtain ⟨hage, hact⟩ := Option.ite_none_right_eq_some.mp hact
      exact ⟨name, cutoff, modified, hphase, hmodified, hage, (Option.some.inj hact).symm⟩
    · cases hact
  · cases hact

theorem remove_eq_some (hact : m.act .remove = some m') :
    ∃ name, m.sweep = .aged name ∧
      m' = { m with toDisk := m.setFile name none, sweep := .idle } := by
  simp only [act] at hact
  split at hact
  · next name hphase => exact ⟨name, hphase, (Option.some.inj hact).symm⟩
  · cases hact

theorem Attended.act {a : SweepAction} (h : m.Attended) (hop : m.issues a)
    (hyoung : m.youngIfSpared a) (hact : m.act a = some m') : m'.Attended := by
  cases a with
  | commit op =>
    obtain ⟨d, hd, rfl⟩ := Option.map_eq_some_iff.mp hact
    exact h.commit (hop op rfl) hd
  | create run number modified =>
    obtain ⟨hrow, hact⟩ := Option.ite_none_right_eq_some.mp hact
    cases hact
    exact h.setFile _ _ (fun _ => Or.inr (Option.isSome_iff_exists.mp hrow))
  | modify name modified =>
    obtain ⟨hfile, hact⟩ := Option.ite_none_right_eq_some.mp hact
    cases hact
    exact h.setFile _ _ (fun _ => h.files name hfile)
  | rename run number =>
    obtain ⟨hfile, hact⟩ := Option.ite_none_right_eq_some.mp hact
    cases hact
    have hattributed : m.Attributed (run, number) := h.files ⟨run, number, false⟩ hfile
    have hrenamed := h.setFile ⟨run, number, true⟩ (m.files ⟨run, number, false⟩)
      (fun _ => hattributed)
    exact hrenamed.setFile ⟨run, number, false⟩ none (fun hnone => by cases hnone)
  | unlink name =>
    cases hact
    exact h.setFile name none (fun hnone => by cases hnone)
  | lookUp name now =>
    obtain ⟨⟨hfile, -⟩, hact⟩ := Option.ite_none_right_eq_some.mp hact
    cases hact
    exact ⟨h.sound, h.files, h.files name hfile⟩
  | readAge =>
    obtain ⟨name, cutoff, modified, hphase, hmodified, hage, rfl⟩ := readAge_eq_some hact
    have hknown := h.known
    unfold Known at hknown
    rw [hphase] at hknown
    refine ⟨h.sound, h.files, ?_⟩
    rcases hknown with hdeleted | ⟨o, ho⟩
    · exact Or.inl hdeleted
    -- an old file is not spared, so its artifact is pruned
    refine Or.inr ⟨o, ho, ?_⟩
    by_contra hstate
    have hlater := hyoung name cutoff hphase ⟨o, ho, hstate⟩ modified hmodified
    omega
  | remove =>
    obtain ⟨name, -, rfl⟩ := remove_eq_some hact
    have hremoved := h.setFile name none (fun hnone => by cases hnone)
    exact ⟨hremoved.sound, hremoved.files, trivial⟩
  | leave =>
    cases hact
    exact ⟨h.sound, h.files, trivial⟩

end OrphanSweep

end Locron
