import Locron.Daemon.Disk

set_option autoImplicit false

/-! # Pruning output files

The daemon's maintenance and the prune command remove old output files in two phases: the artifact
is marked in the database, the file is removed, and the artifact is recorded as pruned. Candidates
are listed in one transaction and handled in later ones, any number of drivers run at once, and each
of them may stop at any point. Every transaction and every change of a file is one action of the
machine below, so its runs are all interleavings (`Pruning.prune_safe`).
-/

namespace Locron

/-- The recorded path is the one that is removed. -/
def RetentionCandidate.canonical (c : RetentionCandidate) : Bool :=
  c.attemptNumber ≤ 65535 && c.relativePath = OutputRow.finalPath c.runId c.attemptNumber

namespace RetentionCandidate

def key (c : RetentionCandidate) : Uuid × Nat := (c.runId, c.attemptNumber)

def file (c : RetentionCandidate) : OutputName := ⟨c.runId, c.attemptNumber, true⟩

end RetentionCandidate

/-- How far a driver is with a candidate. -/
inductive PrunePhase where
  | selected
  | marked
  | unlinked
deriving DecidableEq, Repr

/-- A candidate in the hands of some driver. -/
structure PruneTask where
  candidate : RetentionCandidate
  phase : PrunePhase
deriving DecidableEq, Repr

/-- The disk and the drivers; two histories record the artifacts that were marked and the files that
were removed. -/
structure Pruning extends Disk where
  tasks : List PruneTask
  marked : List (Uuid × Nat)
  removed : List (Uuid × Nat)

/-- The operations that drivers of pruning issue. -/
def Op.prunes : Op → Bool
  | .markOutputPrunePending _ _ _ | .finishOutputPrune _ _ _ => true
  | _ => false

inductive PruneAction where
  /-- any other operation is committed -/
  | commit (op : Op)
  /-- any other process writes, renames or removes a file -/
  | setFile (name : OutputName) (modified : Option Int)
  /-- a driver lists candidates -/
  | list (limit : Nat)
  /-- a driver lists the prunings that another one left behind -/
  | resume (limit : Nat)
  | mark (c : RetentionCandidate) (now : Int)
  | unlink (c : RetentionCandidate)
  | finish (c : RetentionCandidate) (now : Int)
  /-- a driver passes over a candidate, fails, or crashes -/
  | abandon (task : PruneTask)

def PruneAction.operation : PruneAction → Option Op
  | .commit op => some op
  | _ => none

namespace Pruning

def initial : Pruning := { Disk.initial with tasks := [], marked := [], removed := [] }

def advance (p : Pruning) (c : RetentionCandidate) (phase next : PrunePhase) : List PruneTask :=
  p.tasks.erase ⟨c, phase⟩ ++ [⟨c, next⟩]

def act (p : Pruning) : PruneAction → Option Pruning
  | .commit op =>
    if op.prunes then none else (p.commit op).map (fun d => { p with toDisk := d })
  | .setFile name modified => some { p with toDisk := p.setFile name modified }
  | .list limit => some { p with
      tasks := p.tasks ++ (p.store.outputRetentionCandidates limit).map (fun c => ⟨c, .selected⟩) }
  | .resume limit => some { p with
      tasks := p.tasks ++ (p.store.pendingOutputPrunes limit).map (fun c => ⟨c, .marked⟩) }
  | .mark c now =>
    if ⟨c, .selected⟩ ∈ p.tasks ∧ c.canonical = true then
      (p.commit (.markOutputPrunePending c.runId c.attemptNumber now)).map (fun d => { p with
        toDisk := d
        tasks := p.advance c .selected .marked
        marked := p.marked ++ [c.key] })
    else none
  | .unlink c =>
    if ⟨c, .marked⟩ ∈ p.tasks ∧ c.canonical = true then some { p with
      toDisk := p.setFile c.file none
      tasks := p.advance c .marked .unlinked
      removed := if (p.files c.file).isSome then p.removed ++ [c.key] else p.removed }
    else none
  | .finish c now =>
    if ⟨c, .unlinked⟩ ∈ p.tasks then
      (p.commit (.finishOutputPrune c.runId c.attemptNumber now)).map (fun d => { p with
        toDisk := d
        tasks := p.tasks.erase ⟨c, .unlinked⟩ })
    else none
  | .abandon task => some { p with tasks := p.tasks.erase task }

/-- The operations beside the drivers are those of the system. -/
def issues (p : Pruning) (a : PruneAction) : Prop := ∀ op ∈ a.operation, p.Issues op

/-- The states of the system's runs. -/
def Reaches (p : Pruning) : Prop := Runs.Reaches act issues (· = initial) p

end Pruning

/-! ## Marked artifacts -/

theorem OutputStep.marked {s : Store} {op : Op} {k : Uuid × Nat} {o o' : Option OutputRow}
    (h : OutputStep s op k o o') {row' : OutputRow} (hrow' : o' = some row')
    (hstate : row'.state = .prunePending ∨ row'.state = .pruned) :
    (∃ row, o = some row ∧ (row.state = .prunePending ∨ row.state = .pruned)) ∨
      ∃ now, op = .markOutputPrunePending k.1 k.2 now := by
  cases h with
  | keep => exact Or.inl ⟨row', hrow', hstate⟩
  | insert | finalize =>
    cases hrow'
    rcases hstate with hstate | hstate <;> cases hstate
  | giveUp _ _ _ hmissing _ =>
    cases hrow'
    rw [hmissing] at hstate
    rcases hstate with hstate | hstate <;> cases hstate
  | mark _ _ now hop _ _ _ => exact Or.inr ⟨now, hop⟩
  | prune row _ _ _ hpending _ _ => exact Or.inl ⟨row, rfl, Or.inl hpending⟩
  | delete _ _ _ _ _ => cases hrow'

theorem OutputStep.stays_marked {s : Store} {op : Op} {k : Uuid × Nat} {row row' : OutputRow}
    (h : OutputStep s op k (some row) (some row'))
    (hstate : row.state = .prunePending ∨ row.state = .pruned) :
    row'.state = .prunePending ∨ row'.state = .pruned := by
  have hsettled : row.isOpen = false ∧ row.state ≠ .finalized := by
    rcases hstate with hstate | hstate <;> simp [OutputRow.isOpen, hstate]
  rcases h.of_settled hsettled.1 hsettled.2 with rfl | hpruned
  · exact hstate
  · exact Or.inr hpruned

namespace Store

theorem find_updateOutputs_of {s : Store} {p : OutputRow → Bool} {f : OutputRow → OutputRow}
    {hf : ∀ o, (f o).key = o.key} {k : Uuid × Nat} {o : OutputRow}
    (hfind : s.outputs.find k = some o) (ho : p o = true) :
    (s.updateOutputs p f hf).outputs.find k = some (f o) := by
  rw [updateOutputs, Table.find_update, hfind, Option.map_some, if_pos ho]

theorem markOutputPrunePending_ok {s s' : Store} {run : Uuid} {number : Nat} {now : Int}
    (h : s.markOutputPrunePending run number now = .ok s') :
    ∃ o, s'.outputs.find (run, number) = some o ∧ o.state = .prunePending := by
  unfold markOutputPrunePending at h
  dsimp only at h
  split at h
  · next hcount =>
    cases h
    have hpos : 0 < s.outputs.rows.countP (OutputRow.isOf run number [.finalized]) := by
      have heq : s.outputs.rows.countP (OutputRow.isOf run number [.finalized]) = 1 := hcount
      omega
    obtain ⟨o, ho, hof⟩ := List.countP_pos_iff.mp hpos
    have hkey : o.key = (run, number) := by
      simp only [OutputRow.isOf, Bool.and_eq_true, decide_eq_true_eq] at hof
      exact Prod.ext hof.1.1 hof.1.2
    have hfind : s.outputs.find (run, number) = some o := hkey ▸ Table.find_of_mem ho
    refine ⟨{ o with state := .prunePending, pruneStartedAt := some now }, ?_, rfl⟩
    exact find_updateOutputs_of hfind hof
  · cases h

theorem of_mem_outputRetentionCandidates {s : Store} {limit : Nat} {c : RetentionCandidate}
    (h : c ∈ s.outputRetentionCandidates limit) :
    ∃ r, s.runs.find c.runId = some r ∧ r.state.isTerminal = true := by
  obtain ⟨o, ho, rfl⟩ := List.mem_map.mp ((List.mem_insertionSort _).mp (List.mem_of_mem_take h))
  have hof := (List.mem_filter.mp ho).2
  simp only [Bool.and_eq_true, Option.any_eq_true] at hof
  exact hof.2

theorem of_mem_pendingOutputPrunes {s : Store} {limit : Nat} {c : RetentionCandidate}
    (h : c ∈ s.pendingOutputPrunes limit) :
    ∃ o ∈ s.outputs.rows, o.key = c.key ∧ o.state = .prunePending := by
  obtain ⟨o, ho, rfl⟩ := List.mem_map.mp (List.mem_of_mem_take h)
  obtain ⟨ho, hstate⟩ := List.mem_filter.mp ((List.mem_insertionSort _).mp ho)
  exact ⟨o, ho, rfl, by simpa using hstate⟩

end Store

namespace Disk

variable {d d' : Disk} {op : Op}

/-- The artifact is being pruned or was pruned, or is deleted together with its run. -/
def Condemned (d : Disk) (k : Uuid × Nat) : Prop :=
  d.Deleted k.1 ∨ ∃ o, d.store.outputs.find k = some o ∧
    (o.state = .prunePending ∨ o.state = .pruned)

theorem Condemned.commit (h : d.Sound) (hop : d.Issues op) (hcommit : d.commit op = some d')
    {k : Uuid × Nat} (hk : d.Condemned k) : d'.Condemned k := by
  rcases hk with hdeleted | ⟨o, ho, hstate⟩
  · exact Or.inl (hdeleted.commit h hop hcommit)
  rcases h.artifact_commit hop hcommit ho with hdeleted | ⟨o', ho', hstep⟩
  · exact Or.inl hdeleted
  · exact Or.inr ⟨o', ho', hstep.stays_marked hstate⟩

end Disk

/-! ## Safety -/

namespace Pruning

variable {p p' : Pruning}

/-- What a driver knows about the candidate in its hands. -/
def Warranted (p : Pruning) (task : PruneTask) : Prop :=
  match task.phase with
  | .selected => p.Ended task.candidate.runId
  | .marked | .unlinked => task.candidate.key ∈ p.marked ∧ p.Condemned task.candidate.key

/-- The invariant of the protocol. -/
structure Safe (p : Pruning) : Prop where
  sound : p.Sound
  artifacts : ∀ o ∈ p.store.outputs.rows, o.state = .prunePending ∨ o.state = .pruned →
    p.Ended o.runId ∧ o.key ∈ p.marked
  tasks : ∀ task ∈ p.tasks, p.Warranted task
  removed : ∀ k ∈ p.removed, k ∈ p.marked ∧ p.Condemned k

theorem safe_initial : initial.Safe := by
  refine ⟨Disk.sound_initial, ?_, ?_, ?_⟩
  · intro o ho
    cases ho
  · intro task htask
    cases htask
  · intro k hk
    cases hk

/-- Warrants survive while the marks are kept and what is ended or condemned stays so. -/
theorem Warranted.mono {task : PruneTask} (h : p.Warranted task)
    (hmarked : ∀ k ∈ p.marked, k ∈ p'.marked) (hended : ∀ run, p.Ended run → p'.Ended run)
    (hcondemned : ∀ k, p.Condemned k → p'.Condemned k) : p'.Warranted task := by
  obtain ⟨candidate, phase⟩ := task
  cases phase with
  | selected => exact hended _ h
  | marked | unlinked => exact ⟨hmarked _ h.1, hcondemned _ h.2⟩

/-- **Committing keeps the protocol safe**, if marking is for an ended run and is recorded. -/
theorem Safe.commit {op : Op} (h : p.Safe) (hop : p.Issues op)
    (hcommit : p.commit op = some p'.toDisk) (hmarked : ∀ k ∈ p.marked, k ∈ p'.marked)
    (hmark : ∀ run number now, op = .markOutputPrunePending run number now →
      p.Ended run ∧ (run, number) ∈ p'.marked)
    (htasks : ∀ task ∈ p'.tasks, task ∈ p.tasks ∨ p'.Warranted task)
    (hremoved : p'.removed = p.removed) : p'.Safe := by
  have hended : ∀ run, p.Ended run → p'.Ended run := fun run hrun =>
    hrun.commit h.sound hop hcommit
  have hcondemned : ∀ k, p.Condemned k → p'.Condemned k := fun k hk =>
    hk.commit h.sound hop hcommit
  refine ⟨h.sound.commit hop hcommit, ?_, ?_, ?_⟩
  · intro o' ho' hstate
    obtain ⟨s, happly, hs⟩ := Disk.commit_eq_some hcommit
    have hfind : s.outputs.find o'.key = some o' := by
      rw [hs] at ho'
      exact Table.find_of_mem ho'
    rcases (Store.apply_output h.sound.reachable.owned happly o'.key).marked hfind hstate with
      ⟨o, ho, hold⟩ | ⟨now, hop'⟩
    · have hkey : o.key = o'.key := Table.key_of_find ho
      obtain ⟨hrun, hin⟩ := h.artifacts o (Table.mem_of_find ho) hold
      rw [hkey] at hin
      have hrun' : o.runId = o'.runId := congrArg Prod.fst hkey
      exact ⟨hended _ (hrun' ▸ hrun), hmarked _ hin⟩
    · obtain ⟨hrun, hin⟩ := hmark _ _ _ hop'
      exact ⟨hended _ hrun, hin⟩
  · intro task htask
    rcases htasks task htask with hold | hnew
    · exact (h.tasks task hold).mono hmarked hended hcondemned
    · exact hnew
  · intro k hk
    rw [hremoved] at hk
    exact ⟨hmarked _ (h.removed k hk).1, hcondemned _ (h.removed k hk).2⟩

theorem issues_mark (p : Pruning) (run : Uuid) (number : Nat) (now : Int) :
    p.Issues (.markOutputPrunePending run number now) :=
  ⟨by simp only [Store.systemOp], by simp [Op.drawn]⟩

theorem issues_finish (p : Pruning) (run : Uuid) (number : Nat) (now : Int) :
    p.Issues (.finishOutputPrune run number now) :=
  ⟨by simp only [Store.systemOp], by simp [Op.drawn]⟩

/-- What each action does, in the terms of the protocol. -/
theorem Safe.act {a : PruneAction} (h : p.Safe) (ha : p.issues a) (hact : p.act a = some p') :
    p'.Safe := by
  cases a with
  | commit op =>
    obtain ⟨hprunes, hact⟩ := Option.ite_none_left_eq_some.mp hact
    obtain ⟨d, hd, rfl⟩ := Option.map_eq_some_iff.mp hact
    refine h.commit (ha op rfl) hd (fun _ hk => hk) ?_ (fun _ ht => Or.inl ht) rfl
    rintro run number now rfl
    exact absurd rfl hprunes
  | setFile name modified =>
    cases hact
    exact ⟨⟨h.sound.reachable, h.sound.used, h.sound.owned⟩, h.artifacts, h.tasks, h.removed⟩
  | list limit =>
    cases hact
    refine ⟨h.sound, h.artifacts, ?_, h.removed⟩
    intro task htask
    rcases List.mem_append.mp htask with hold | hnew
    · exact h.tasks task hold
    obtain ⟨c, hc, rfl⟩ := List.mem_map.mp hnew
    obtain ⟨r, hr, hterminal⟩ := Store.of_mem_outputRetentionCandidates hc
    refine ⟨?_, fun r' hr' => ?_⟩
    · rw [← Table.key_of_find hr]
      exact h.sound.used r (Table.mem_of_find hr)
    · obtain rfl : r = r' := Option.some.inj (hr.symm.trans hr')
      exact hterminal
  | resume limit =>
    cases hact
    refine ⟨h.sound, h.artifacts, ?_, h.removed⟩
    intro task htask
    rcases List.mem_append.mp htask with hold | hnew
    · exact h.tasks task hold
    obtain ⟨c, hc, rfl⟩ := List.mem_map.mp hnew
    obtain ⟨o, ho, hkey, hstate⟩ := Store.of_mem_pendingOutputPrunes hc
    have hmarked := (h.artifacts o ho (Or.inl hstate)).2
    rw [hkey] at hmarked
    exact ⟨hmarked, Or.inr ⟨o, hkey ▸ Table.find_of_mem ho, Or.inl hstate⟩⟩
  | mark c now =>
    obtain ⟨⟨htask, -⟩, hact⟩ := Option.ite_none_right_eq_some.mp hact
    obtain ⟨d, hd, rfl⟩ := Option.map_eq_some_iff.mp hact
    have hkeep : ∀ k ∈ p.marked, k ∈ p.marked ++ [c.key] := fun k hk =>
      List.mem_append_left _ hk
    have hnew : c.key ∈ p.marked ++ [c.key] := List.mem_append_right _ (List.mem_singleton.mpr rfl)
    refine h.commit (p.issues_mark _ _ now) hd hkeep ?_ ?_ rfl
    · intro run number now' hop
      cases hop
      exact ⟨h.tasks _ htask, hnew⟩
    · intro task htask'
      rcases List.mem_append.mp htask' with hold | hadded
      · exact Or.inl (List.mem_of_mem_erase hold)
      rw [List.mem_singleton.mp hadded]
      obtain ⟨s, happly, rfl⟩ := Disk.commit_eq_some hd
      obtain ⟨o, ho, hstate⟩ := Store.markOutputPrunePending_ok happly
      exact Or.inr ⟨hnew, Or.inr ⟨o, ho, Or.inl hstate⟩⟩
  | unlink c =>
    obtain ⟨⟨htask, -⟩, hact⟩ := Option.ite_none_right_eq_some.mp hact
    cases hact
    have hwarrant : p.Warranted ⟨c, .marked⟩ := h.tasks _ htask
    refine ⟨⟨h.sound.reachable, h.sound.used, h.sound.owned⟩, h.artifacts, ?_, ?_⟩
    · intro task htask'
      rcases List.mem_append.mp htask' with hold | hadded
      · exact h.tasks task (List.mem_of_mem_erase hold)
      · rw [List.mem_singleton.mp hadded]
        exact hwarrant
    · intro k hk
      split at hk
      · rcases List.mem_append.mp hk with hold | hadded
        · exact h.removed k hold
        · rw [List.mem_singleton.mp hadded]
          exact hwarrant
      · exact h.removed k hk
  | finish c now =>
    obtain ⟨-, hact⟩ := Option.ite_none_right_eq_some.mp hact
    obtain ⟨d, hd, rfl⟩ := Option.map_eq_some_iff.mp hact
    refine h.commit (p.issues_finish _ _ now) hd (fun _ hk => hk) ?_
      (fun _ ht => Or.inl (List.mem_of_mem_erase ht)) rfl
    intro run number now' hop
    cases hop
  | abandon task =>
    cases hact
    exact ⟨h.sound, h.artifacts, fun t ht => h.tasks t (List.mem_of_mem_erase ht), h.removed⟩

theorem Reaches.safe (h : p.Reaches) : p.Safe :=
  Runs.Reaches.invariant (fun _ hs => hs ▸ safe_initial) (fun _ _ _ hs ha hact => hs.act ha hact) h

/-- Pruning removed the file of an artifact that was marked before; its run, as long as it has
metadata, is terminal, and the artifact is not finalized. -/
structure RightlyRemoved (p : Pruning) (k : Uuid × Nat) : Prop where
  marked : k ∈ p.marked
  terminal : ∀ r, p.store.runs.find k.1 = some r → r.state.isTerminal = true
  condemned : ∀ o, p.store.outputs.find k = some o → o.state = .prunePending ∨ o.state = .pruned

theorem Safe.rightlyRemoved (h : p.Safe) {k : Uuid × Nat} (hmarked : k ∈ p.marked)
    (hk : p.Condemned k) : p.RightlyRemoved k := by
  rcases hk with ⟨-, hgone⟩ | ⟨o, ho, hstate⟩
  · refine ⟨hmarked, fun r hr => ?_, fun o ho => ?_⟩
    · rw [hgone] at hr
      cases hr
    · -- an artifact needs its run
      obtain ⟨r, hr⟩ := h.sound.owned o (Table.mem_of_find ho)
      have hrun : o.runId = k.1 := congrArg Prod.fst (Table.key_of_find ho)
      rw [hrun, hgone] at hr
      cases hr
  · refine ⟨hmarked, ?_, fun o' ho' => ?_⟩
    · have hrun : o.runId = k.1 := congrArg Prod.fst (Table.key_of_find ho)
      rw [← hrun]
      exact (h.artifacts o (Table.mem_of_find ho) hstate).1.2
    · obtain rfl : o = o' := Option.some.inj (ho.symm.trans ho')
      exact hstate

theorem Safe.unlinked (h : p.Safe) {c : RetentionCandidate} (hact : p.act (.unlink c) = some p') :
    p.RightlyRemoved c.key := by
  obtain ⟨⟨htask, -⟩, -⟩ := Option.ite_none_right_eq_some.mp hact
  obtain ⟨hmarked, hk⟩ : p.Warranted ⟨c, .marked⟩ := h.tasks _ htask
  exact h.rightlyRemoved hmarked hk

/-- An action changes the database by committing an operation. -/
theorem store_of_act {a : PruneAction} (hact : p.act a = some p') :
    p'.store = p.store ∨ ∃ op, p.store.apply op = .ok p'.store := by
  have hcommitted : ∀ {op : Op} {d : Disk}, p.commit op = some d → p'.toDisk = d →
      ∃ op, p.store.apply op = .ok p'.store := by
    intro op d hd heq
    obtain ⟨s, happly, rfl⟩ := Disk.commit_eq_some hd
    exact ⟨op, by rw [heq]; exact happly⟩
  cases a with
  | commit op =>
    obtain ⟨-, hact⟩ := Option.ite_none_left_eq_some.mp hact
    obtain ⟨d, hd, rfl⟩ := Option.map_eq_some_iff.mp hact
    exact Or.inr (hcommitted hd rfl)
  | mark c now =>
    obtain ⟨-, hact⟩ := Option.ite_none_right_eq_some.mp hact
    obtain ⟨d, hd, rfl⟩ := Option.map_eq_some_iff.mp hact
    exact Or.inr (hcommitted hd rfl)
  | finish c now =>
    obtain ⟨-, hact⟩ := Option.ite_none_right_eq_some.mp hact
    obtain ⟨d, hd, rfl⟩ := Option.map_eq_some_iff.mp hact
    exact Or.inr (hcommitted hd rfl)
  | unlink c =>
    obtain ⟨-, hact⟩ := Option.ite_none_right_eq_some.mp hact
    cases hact
    exact Or.inl rfl
  | setFile name modified | list limit | resume limit | abandon task =>
    cases hact
    exact Or.inl rfl

/-- **The prune protocol is safe** in every run of its drivers, of the other operations and of other
changes to the files, with a stop at any point. The file that a driver removes belongs to an
artifact marked before, of a terminal run. No artifact whose file was removed is finalized, and none
of a run that is not terminal is pruned. Metadata is deleted only of terminal runs whose outputs are
all pruned or missing. -/
theorem prune_safe {p : Pruning} (h : p.Reaches) :
    (∀ k ∈ p.removed, p.RightlyRemoved k) ∧
    (∀ o ∈ p.store.outputs.rows, o.state = .prunePending ∨ o.state = .pruned →
      ∃ r, p.store.runs.find o.runId = some r ∧ r.state.isTerminal = true) ∧
    ∀ a p', p.act a = some p' →
      (∀ c, a = .unlink c → p.RightlyRemoved c.key) ∧
      ∀ r ∈ p.store.runs.rows, p'.store.runs.find r.id = none →
        r.state.isTerminal = true ∧
          ∀ o ∈ p.store.outputs.rows, o.runId = r.id → o.state = .pruned ∨ o.state = .missing := by
  have hsafe := Reaches.safe h
  refine ⟨fun k hk => ?_, fun o ho hstate => ?_, fun a p' hact => ⟨?_, fun r hr hgone => ?_⟩⟩
  · exact hsafe.rightlyRemoved (hsafe.removed k hk).1 (hsafe.removed k hk).2
  · obtain ⟨r, hr⟩ := hsafe.sound.owned o ho
    exact ⟨r, hr, (hsafe.artifacts o ho hstate).1.2 r hr⟩
  · rintro c rfl
    exact hsafe.unlinked hact
  · rcases store_of_act hact with heq | ⟨op, happly⟩
    · rw [heq, Table.find_of_mem hr] at hgone
      cases hgone
    · exact Store.of_run_deleted hsafe.sound.reachable.owned happly hr hgone

/-- A run that is cancelled before its attempt starts, after its output file was finalized; then two
drivers list the artifact, one marks it and removes the file, and the other is refused. -/
def cancelledThenPruned : List PruneAction :=
  let job : Snapshot := .job ⟨.every 3600000000 0, .default, .retain, "true"⟩
  let candidate : RetentionCandidate := ⟨3, 1, OutputRow.finalPath 3 1, 9, 1⟩
  [.commit (.createJob ⟨1, "job", none, "[]", true, job, 0, 0⟩),
   .commit (.beginLifetime 2 0),
   .commit (.enqueueManual 1 1 job 3 0),
   .commit (.admitRuns (fun _ => some job) 2 0 1),
   .setFile ⟨3, 1, true⟩ (some 0),
   .commit (.reconcileOutputFinalized ⟨3, 1, 1, 9, 0, false⟩ 1),
   .commit (.cancel 3 1 false),
   .commit (.markAttemptRunning 3 1 1 none),
   .list 100,
   .list 100,
   .mark candidate 2,
   .unlink candidate]

theorem prune_safe_cancelled : ∃ p : Pruning, p.Reaches ∧ p.removed = [(3, 1)] ∧
    p.RightlyRemoved (3, 1) := by
  obtain ⟨p, hp, hremoved⟩ := @Runs.exists_reaches _ _ act issues (· = initial)
    (fun p a => a.operation.all p.checkIssues) (fun _ _ => Disk.issues_of_all) cancelledThenPruned
    initial rfl (fun p => p.removed = [(3, 1)]) _ (by decide +kernel)
  exact ⟨p, hp, hremoved, (prune_safe hp).1 _ (hremoved ▸ List.mem_singleton.mpr rfl)⟩

end Pruning

end Locron
