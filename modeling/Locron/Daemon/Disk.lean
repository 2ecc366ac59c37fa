import Locron.Daemon.Completion
import Locron.Lib.Runs
import Locron.Store.OutputEffect
import Locron.Store.Positions

set_option autoImplicit false

/-! # The database and the output files

What survives a crash: the committed state of the database and the files in the outputs directory.
The daemon and the commands commit operations; the identities of the runs they insert are new ones,
so that a deleted run never comes back (`Disk.Sound`).
-/

namespace Locron

/-- A file in the directory of a run: the complete output of an attempt, or what is written of
it. -/
structure OutputName where
  run : Uuid
  number : Nat
  final : Bool
deriving DecidableEq, Repr

namespace OutputName

def relativePath (name : OutputName) : String :=
  if name.final then OutputRow.finalPath name.run name.number
  else OutputRow.partialPath name.run name.number

/-- The attempt that the file belongs to. -/
def key (name : OutputName) : Uuid × Nat := (name.run, name.number)

end OutputName

/-- The identities of the runs that an operation inserts. -/
def Op.drawn : Op → List Uuid
  | .enqueueManual _ _ _ run _ => [run]
  | .materialize _ _ runs _ _ => runs.map (fun r => r.id)
  | _ => []

/-- The durable state: the database, the files with their modification times, and, as a history that
no component reads, the identities of all runs so far. -/
structure Disk where
  store : Store
  files : OutputName → Option Int
  used : List Uuid

namespace Disk

def initial : Disk := ⟨.initial, fun _ => none, []⟩

def commit (d : Disk) (op : Op) : Option Disk :=
  match d.store.apply op with
  | .ok s => some { d with store := s, used := d.used ++ op.drawn }
  | .error _ => none

def setFile (d : Disk) (name : OutputName) (modified : Option Int) : Disk :=
  { d with files := Function.update d.files name modified }

/-- The system issues the operation, and new runs get new identities. -/
def Issues (d : Disk) (op : Op) : Prop :=
  d.store.systemOp op ∧ ∀ id ∈ op.drawn, id ∉ d.used

/-- A check that suffices for operations that complete no attempt. -/
def checkIssues (d : Disk) (op : Op) : Bool :=
  (match op with | .completeAttempt _ => false | _ => true) && op.drawn.all (fun id => id ∉ d.used)

theorem issues_of_check {d : Disk} {op : Op} (h : d.checkIssues op = true) : d.Issues op := by
  obtain ⟨hop, hdrawn⟩ := (Bool.and_eq_true _ _).mp h
  refine ⟨?_, fun id hid => of_decide_eq_true (List.all_eq_true.mp hdrawn id hid)⟩
  cases op with
  | completeAttempt c => cases hop
  | _ => simp only [Store.systemOp]

/-- An action with at most one operation. -/
theorem issues_of_all {d : Disk} {op : Option Op} (h : op.all d.checkIssues = true) :
    ∀ o ∈ op, d.Issues o := by
  rintro o rfl
  exact issues_of_check h

theorem commit_eq_some {d d' : Disk} {op : Op} (h : d.commit op = some d') :
    ∃ s, d.store.apply op = .ok s ∧ d' = { d with store := s, used := d.used ++ op.drawn } := by
  unfold commit at h
  split at h
  · next s hs =>
    cases h
    exact ⟨s, hs, rfl⟩
  · cases h

/-- The references that hold on the disk. -/
structure Sound (d : Disk) : Prop where
  reachable : Store.Reachable Store.unmarkedRetries d.store
  used : ∀ r ∈ d.store.runs.rows, r.id ∈ d.used
  owned : ∀ o ∈ d.store.outputs.rows, ∃ r, d.store.runs.find o.runId = some r

theorem sound_initial : initial.Sound := by
  refine ⟨.refl, ?_, ?_⟩
  · intro r hr
    cases hr
  · intro o ho
    cases ho

end Disk

namespace Store

/-- New runs have the identities that the operation names. -/
theorem drawn_of_new {s s' : Store} {op : Op} (howned : s.Owned) (h : s.apply op = .ok s')
    {r' : RunRow} (hr' : r' ∈ s'.runs.rows) :
    (∃ r ∈ s.runs.rows, r.SameRun r') ∨ r'.id ∈ op.drawn := by
  cases hqueues : op.queues with
  | false =>
    obtain ⟨r, hr, hcont⟩ := continues_of_not_queues howned hqueues h hr'
    exact Or.inl ⟨r, hr, hcont.toSameRun⟩
  | true =>
    cases op with
    | enqueueManual job revision snapshot run now =>
      obtain ⟨policy, -, -, -, -, -, hrows⟩ := enqueueManual_ok h
      rw [hrows] at hr'
      rcases List.mem_append.mp hr' with hr' | hr'
      · exact Or.inl (sameRun_of_mem_roomRows hr')
      · rw [List.mem_singleton.mp hr']
        exact Or.inr (List.mem_singleton.mpr rfl)
    | materialize job cursor runs summaries now =>
      obtain ⟨⟨result, s₁⟩, hs₁, rfl⟩ := Except.map_eq_ok.mp h
      rcases materialized_rows hs₁ r' hr' with hold | ⟨run, hrun, hid, -⟩
      · exact Or.inl hold
      · exact Or.inr (List.mem_map.mpr ⟨run, hrun, hid.symm⟩)
    | _ => cases hqueues

theorem of_run_deleted {s s' : Store} {op : Op} (howned : s.Owned) (h : s.apply op = .ok s')
    {r : RunRow} (hr : r ∈ s.runs.rows) (hgone : s'.runs.find r.id = none) :
    r.state.isTerminal = true ∧
      ∀ o ∈ s.outputs.rows, o.runId = r.id → o.state = .pruned ∨ o.state = .missing := by
  rcases run_persists howned h (Table.find_of_mem hr) with ⟨r', hr'⟩ | ⟨candidate, rfl, hid⟩
  · rw [hgone] at hr'
    cases hr'
  rcases finishRunRetention_ok h with rfl | ⟨hsafe, rfl⟩
  · rw [Table.find_of_mem hr] at hgone
    cases hgone
  obtain ⟨⟨r₀, hr₀, hterminal⟩, houtputs⟩ := of_retentionSafe hsafe
  rw [hid] at hr₀ houtputs
  obtain rfl : r₀ = r := Option.some.inj (hr₀.symm.trans (Table.find_of_mem hr))
  exact ⟨hterminal, houtputs⟩

end Store

namespace Disk

variable {d d' : Disk} {op : Op}

theorem Issues.unmarked (h : d.Issues op) : Store.unmarkedRetries d.store op :=
  Store.unmarkedRetries_of_systemOp h.1

/-- **Committing keeps the references.** -/
theorem Sound.commit (h : d.Sound) (hop : d.Issues op) (hcommit : d.commit op = some d') :
    d'.Sound := by
  obtain ⟨s, happly, rfl⟩ := commit_eq_some hcommit
  have howned := h.reachable.owned
  refine ⟨h.reachable.tail ⟨op, hop.unmarked, happly⟩, ?_, ?_⟩
  · intro r' hr'
    rcases Store.drawn_of_new howned happly hr' with ⟨r, hr, hsame⟩ | hdrawn
    · rw [hsame.id]
      exact List.mem_append_left _ (h.used r hr)
    · exact List.mem_append_right _ hdrawn
  · intro o' ho'
    -- the run was there before, and retention deletes the artifacts with it
    have hbefore : ∃ r, d.store.runs.find o'.runId = some r := by
      rcases (Store.apply_output howned happly o'.key).origin (Table.find_of_mem ho') with
        ⟨o, ho⟩ | ⟨hrun, -⟩
      · have hrun : o.runId = o'.runId := congrArg Prod.fst (Table.key_of_find ho)
        rw [← hrun]
        exact h.owned o (Table.mem_of_find ho)
      · exact Option.isSome_iff_exists.mp hrun
    obtain ⟨r, hr⟩ := hbefore
    rcases Store.run_persists howned happly hr with hpersists | ⟨candidate, rfl, hid⟩
    · exact hpersists
    rcases Store.finishRunRetention_ok happly with rfl | ⟨-, rfl⟩
    · exact ⟨r, hr⟩
    have hkept : (!decide (o'.runId = candidate.runId)) = true := (List.mem_filter.mp ho').2
    rw [hid] at hkept
    simp at hkept

/-- The run has ended: it is terminal, or it was deleted and will not come back. -/
def Ended (d : Disk) (run : Uuid) : Prop :=
  run ∈ d.used ∧ ∀ r, d.store.runs.find run = some r → r.state.isTerminal = true

def Deleted (d : Disk) (run : Uuid) : Prop := run ∈ d.used ∧ d.store.runs.find run = none

theorem Deleted.commit (h : d.Sound) (hop : d.Issues op) (hcommit : d.commit op = some d')
    {run : Uuid} (hrun : d.Deleted run) : d'.Deleted run := by
  obtain ⟨s, happly, rfl⟩ := commit_eq_some hcommit
  refine ⟨List.mem_append_left _ hrun.1, Table.find_eq_none.mpr ?_⟩
  rintro r' hr' rfl
  rcases Store.drawn_of_new h.reachable.owned happly hr' with ⟨r, hr, hsame⟩ | hdrawn
  · exact Table.find_eq_none.mp hrun.2 r hr hsame.id.symm
  · exact hop.2 r'.id hdrawn hrun.1

/-- An artifact changes by a step of its own, or is deleted together with its run. -/
theorem Sound.artifact_commit (h : d.Sound) (hop : d.Issues op) (hcommit : d.commit op = some d')
    {k : Uuid × Nat} {o : OutputRow} (ho : d.store.outputs.find k = some o) :
    d'.Deleted k.1 ∨
      ∃ o', d'.store.outputs.find k = some o' ∧ OutputStep d.store op k (some o) (some o') := by
  obtain ⟨s, happly, rfl⟩ := commit_eq_some hcommit
  have hstep : OutputStep d.store op k (some o) (s.outputs.find k) :=
    ho ▸ Store.apply_output h.reachable.owned happly k
  cases ho' : s.outputs.find k with
  | some o' => exact Or.inr ⟨o', rfl, ho' ▸ hstep⟩
  | none =>
    obtain ⟨candidate, rfl, hrun⟩ := hstep.deleted rfl ho'
    rcases Store.finishRunRetention_ok happly with rfl | ⟨-, rfl⟩
    · rw [ho] at ho'
      cases ho'
    obtain ⟨r, hr⟩ := h.owned o (Table.mem_of_find ho)
    have hid : r.id = k.1 :=
      (Table.key_of_find hr).trans (congrArg Prod.fst (Table.key_of_find ho))
    have hused := h.used r (Table.mem_of_find hr)
    have hview := congrArg RunView.run (Store.view_deleteRun d.store candidate.runId k.1)
    rw [if_pos hrun] at hview
    exact Or.inl ⟨List.mem_append_left _ (hid ▸ hused), hview⟩

theorem Ended.commit (h : d.Sound) (hop : d.Issues op) (hcommit : d.commit op = some d')
    {run : Uuid} (hrun : d.Ended run) : d'.Ended run := by
  cases hfind : d.store.runs.find run with
  | none =>
    have hdeleted := Deleted.commit h hop hcommit ⟨hrun.1, hfind⟩
    refine ⟨hdeleted.1, fun r hr => ?_⟩
    rw [hdeleted.2] at hr
    cases hr
  | some r =>
    have hterminal := hrun.2 r hfind
    obtain ⟨s, happly, rfl⟩ := commit_eq_some hcommit
    refine ⟨List.mem_append_left _ hrun.1, fun r' hr' => ?_⟩
    have heffect := Store.apply_effect h.reachable.owned
      (Store.permitted_all d.store op) happly run
    rcases heffect.finishedAs (h.reachable.consistent run) hfind hterminal with
      hnone | ⟨r₁, hr₁, hstate, -⟩
    · have hgone : s.runs.find run = none := hnone
      rw [show s.runs.find run = some r' from hr'] at hgone
      cases hgone
    · obtain rfl : r₁ = r' := Option.some.inj (hr₁.symm.trans hr')
      rw [hstate]
      exact hterminal

end Disk

/-! ## The life of an artifact -/

/-- The states that a closed artifact may still take. -/
def OutputState.ahead : OutputState → List OutputState
  | .finalized => [.finalized, .prunePending, .pruned]
  | .prunePending => [.prunePending, .pruned]
  | state => [state]

/-- An open artifact may become anything; a closed one keeps its path and moves on only. -/
def OutputRow.LeadsTo (o o' : OutputRow) : Prop :=
  o.isOpen = false →
    o'.isOpen = false ∧ o'.relativePath = o.relativePath ∧ o'.state ∈ o.state.ahead

theorem OutputRow.LeadsTo.refl (o : OutputRow) : o.LeadsTo o :=
  fun hclosed => ⟨hclosed, rfl, by cases o.state <;> decide⟩

theorem OutputRow.LeadsTo.trans {o₁ o₂ o₃ : OutputRow} (h : o₁.LeadsTo o₂) (h' : o₂.LeadsTo o₃) :
    o₁.LeadsTo o₃ := by
  intro hclosed
  obtain ⟨hclosed, hpath, hstate⟩ := h hclosed
  obtain ⟨hclosed', hpath', hstate'⟩ := h' hclosed
  refine ⟨hclosed', hpath'.trans hpath, ?_⟩
  revert hstate hstate'
  cases o₁.state <;> cases o₂.state <;> cases o₃.state <;> decide

theorem OutputStep.leadsTo {s : Store} {op : Op} {k : Uuid × Nat} {o o' : OutputRow}
    (h : OutputStep s op k (some o) (some o')) : o.LeadsTo o' := by
  intro hclosed
  cases h with
  | keep => exact OutputRow.LeadsTo.refl o hclosed
  | finalize _ _ _ hopen | giveUp _ _ hopen =>
    rw [hclosed] at hopen
    cases hopen
  | mark _ _ _ _ hstate hstate' hpath | prune _ _ _ _ hstate hstate' hpath =>
    exact ⟨by simp [OutputRow.isOpen, hstate'], hpath, by rw [hstate, hstate']; decide⟩

namespace Disk

/-- **Artifacts only move forward**: a closed one is never written again, keeps its path, and goes
on from finalized to marked and pruned; it is gone only with its run, which does not come back. -/
theorem artifact_moves_forward {d d' : Disk} (hd : Runs.Reaches commit Issues (· = initial) d)
    (h : Runs.Reaches commit Issues (· = d) d') {k : Uuid × Nat} {o : OutputRow}
    (ho : d.store.outputs.find k = some o) :
    d'.Deleted k.1 ∨ ∃ o', d'.store.outputs.find k = some o' ∧ o.LeadsTo o' := by
  -- the states on the way are sound, so that a deleted run stays deleted
  have hsound : ∀ {x}, Runs.Reaches commit Issues (· = d) x → x.Sound := fun hx =>
    (hd.trans hx).invariant (fun _ hs => hs ▸ sound_initial) (fun _ _ _ hs => hs.commit)
  induction h with
  | start hs =>
    subst hs
    exact Or.inr ⟨o, ho, .refl o⟩
  | step hrun hop hcommit ih =>
    rcases ih with hdeleted | ⟨o₁, ho₁, hled⟩
    · exact Or.inl (hdeleted.commit (hsound hrun) hop hcommit)
    rcases (hsound hrun).artifact_commit hop hcommit ho₁ with hdeleted | ⟨o', ho', hstep⟩
    · exact Or.inl hdeleted
    · exact Or.inr ⟨o', ho', hled.trans hstep.leadsTo⟩

theorem artifact_moves_forward_marked : ∃ (d d' : Disk) (o o' : OutputRow),
    Runs.Reaches commit Issues (· = initial) d ∧ Runs.Reaches commit Issues (· = d) d' ∧
      d.store.outputs.find (3, 1) = some o ∧ o.state = .finalized ∧
      d'.store.outputs.find (3, 1) = some o' ∧ o'.state = .prunePending ∧
      (d'.Deleted 3 ∨ ∃ o', d'.store.outputs.find (3, 1) = some o' ∧ o.LeadsTo o') := by
  obtain ⟨d, hd, ⟨o, ho, hstate⟩, d', hd', o', ho', hstate'⟩ :=
    @Runs.exists_reaches _ _ commit Issues (· = initial) checkIssues (fun _ _ => issues_of_check)
    (Store.runningRun false ++ [.reconcileOutputFinalized ⟨3, 1, 1, 9, 0, false⟩ 1]) initial rfl
    (fun d => (∃ o, d.store.outputs.find (3, 1) = some o ∧ o.state = .finalized) ∧
      ∃ d', d.commit (.markOutputPrunePending 3 1 2) = some d' ∧
        ∃ o', d'.store.outputs.find (3, 1) = some o' ∧ o'.state = .prunePending) _
          (by decide +kernel)
  have hmarks : Runs.Reaches commit Issues (· = d) d' :=
    .step (.start rfl) (issues_of_check rfl) hd'
  exact ⟨d, d', o, o', hd, hmarks, ho, hstate, ho', hstate', artifact_moves_forward hd hmarks ho⟩

end Disk

end Locron
