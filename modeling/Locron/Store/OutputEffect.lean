import Locron.Store.StateChanges

set_option autoImplicit false

/-! # The life of one output artifact

Seen from one attempt, the outputs table is the row of its artifact. It is inserted with the
attempt, finalized or given up once, pruned in two steps, and deleted with its run. Whatever an
operation does to the database is one step of this small machine (`apply_output`).
-/

namespace Locron

namespace OutputRow

/-- The file of the artifact may still be written. -/
def isOpen (o : OutputRow) : Bool := o.state = .pending || o.state = .active

/-- The relative path of a file that is being written. -/
def partialPath (run : Uuid) (number : Nat) : String := s!"{run}/{number}.partial"

/-- The relative path of a complete file. -/
def finalPath (run : Uuid) (number : Nat) : String := s!"{run}/{number}.log"

end OutputRow

/-- The attempt whose artifact an operation may finalize or give up. -/
def Op.settles : Op → Option (Uuid × Nat)
  | .markAttemptRunning run number _ _ => some (run, number)
  | .completePreExecutionFailure run number _ _ _ => some (run, number)
  | .completeRunnerFailure run number _ _ _ => some (run, number)
  | .reconcileOutputFinalized output _ => some (output.runId, output.attemptNumber)
  | .reconcileOutputMissing run number _ => some (run, number)
  | _ => none

/-- What one operation does to the artifact with the given key. -/
inductive OutputStep (s : Store) (op : Op) (k : Uuid × Nat) :
    Option OutputRow → Option OutputRow → Prop
  | keep (o : Option OutputRow) : OutputStep s op k o o
  | insert (prepared : Uuid → Option Snapshot) (lifetime : Uuid) (now : Int) (guard : Nat)
      (hop : op = .admitRuns prepared lifetime now guard)
      (hrun : (s.runs.find k.1).isSome = true) :
      OutputStep s op k none (some (.pending k.1 k.2))
  | finalize (o : OutputRow) (output : OutputRecord) (now : Int) (hopen : o.isOpen = true)
      (hkey : (output.runId, output.attemptNumber) = k) (hop : op.settles = some k) :
      OutputStep s op k (some o) (some (o.finalize output now))
  | giveUp (o o' : OutputRow) (hopen : o.isOpen = true) (hstate : o'.state = .missing)
      (hpath : o'.relativePath = o.relativePath) (hop : op.settles = some k) :
      OutputStep s op k (some o) (some o')
  | mark (o o' : OutputRow) (now : Int) (hop : op = .markOutputPrunePending k.1 k.2 now)
      (hstate : o.state = .finalized) (hstate' : o'.state = .prunePending)
      (hpath : o'.relativePath = o.relativePath) : OutputStep s op k (some o) (some o')
  | prune (o o' : OutputRow) (now : Int) (hop : op = .finishOutputPrune k.1 k.2 now)
      (hstate : o.state = .prunePending) (hstate' : o'.state = .pruned)
      (hpath : o'.relativePath = o.relativePath) : OutputStep s op k (some o) (some o')
  | delete (o : OutputRow) (candidate : RunRetentionCandidate)
      (hop : op = .finishRunRetention candidate) (hrun : candidate.runId = k.1)
      (hstate : o.state = .pruned ∨ o.state = .missing) : OutputStep s op k (some o) none

/-- An artifact was there before, or is the pending one of a new attempt. -/
theorem OutputStep.origin {s : Store} {op : Op} {k : Uuid × Nat} {o o' : Option OutputRow}
    (h : OutputStep s op k o o') {row : OutputRow} (hrow : o' = some row) :
    (∃ row₀, o = some row₀) ∨ ((s.runs.find k.1).isSome = true ∧ row.state = .pending) := by
  cases h with
  | keep => exact Or.inl ⟨row, hrow⟩
  | insert _ _ _ _ _ hrun =>
    cases hrow
    exact Or.inr ⟨hrun, rfl⟩
  | delete o candidate hop hrun hstate => cases hrow
  | _ => exact Or.inl ⟨_, rfl⟩

/-- An artifact goes with its run only. -/
theorem OutputStep.deleted {s : Store} {op : Op} {k : Uuid × Nat} {o o' : Option OutputRow}
    (h : OutputStep s op k o o') {row : OutputRow} (hrow : o = some row) (hgone : o' = none) :
    ∃ candidate, op = .finishRunRetention candidate ∧ candidate.runId = k.1 := by
  cases h with
  | keep =>
    rw [hrow] at hgone
    cases hgone
  | delete _ candidate hop hrun _ => exact ⟨candidate, hop, hrun⟩
  | _ => cases hgone

/-- An artifact that is marked, or gone, is left alone or pruned. -/
theorem OutputStep.of_settled {s : Store} {op : Op} {k : Uuid × Nat} {row row' : OutputRow}
    (h : OutputStep s op k (some row) (some row')) (hclosed : row.isOpen = false)
    (hstate : row.state ≠ .finalized) : row' = row ∨ row'.state = .pruned := by
  cases h with
  | keep => exact Or.inl rfl
  | finalize _ _ _ hopen | giveUp _ _ hopen =>
    rw [hclosed] at hopen
    cases hopen
  | mark _ _ _ _ hfinalized => exact absurd hfinalized hstate
  | prune _ _ _ _ _ hpruned => exact Or.inr hpruned

theorem RunStep.persists {permits : Permits} {id : Uuid} {v v' : RunView}
    (h : RunStep permits id v v') {r : RunRow} (hr : v.run = some r) :
    (∃ r', v'.run = some r') ∨ permits.delete r := by
  cases h with
  | keep => exact Or.inl ⟨r, hr⟩
  | overlap h =>
    obtain ⟨r', hr', -⟩ := OverlapStep.state h hr
    exact Or.inl ⟨r', hr'⟩
  | interrupt _ now =>
    rw [hr]
    exact Or.inl ⟨_, rfl⟩
  | delete r₀ hterminal hmay =>
    cases hr
    exact Or.inr hmay
  | _ => exact Or.inl ⟨_, rfl⟩

namespace Store

/-! ## Operations that leave the artifacts alone -/

variable {s s' : Store} {now : Int}

theorem outputs_cancel {run : Uuid} {acknowledge : Bool} {outcome : CancelOutcome}
    (h : s.cancelWithAcknowledgement run now acknowledge = .ok (outcome, s')) :
    s'.outputs = s.outputs := by
  unfold cancelWithAcknowledgement at h
  split at h
  · cases h
  split at h
  · cases h
  · cases h
    exact (sameRuns_softRemove ..).outputs
  · cases h
    exact (sameRuns_softRemove ..).outputs
  split at h
  · cases h
    rfl
  · cases h
    rfl

theorem outputs_beginLifetime {id : Uuid} {stale : Nat}
    (h : s.beginLifetime id now = .ok (stale, s')) : s'.outputs = s.outputs := by
  have hfold : ∀ (runs : List Uuid) (s : Store),
      (runs.foldl (fun s run => s.softRemoveAfterOneTimeCompletion run now) s).outputs
        = s.outputs := by
    intro runs
    induction runs with
    | nil => exact fun _ => rfl
    | cons run runs ih => exact fun s => (ih _).trans (s.sameRuns_softRemove run now).outputs
  unfold beginLifetime at h
  dsimp only at h
  split at h
  · cases h
  · cases h
    exact hfold _ _

theorem outputs_completeAttempt {c : AttemptCompletion}
    (h : s.completeAttempt c = .ok s') : s'.outputs = s.outputs := by
  unfold completeAttempt at h
  split at h
  · obtain ⟨-, h⟩ := Except.guard_eq_ok.mp h
    unfold completeUnconfirmed at h
    split at h
    · split at h
      · cases h
        rfl
      · cases h
    · obtain ⟨-, h⟩ := Except.guard_eq_ok.mp h
      dsimp only at h
      split at h
      · cases h
      cases h
      simp only [event, updateRuns, deleteRetryIntents, updateAttempts,
        apply_ite Store.outputs, ite_self]
  · obtain ⟨-, h⟩ := Except.guard_eq_ok.mp h
    split at h
    · split at h
      · cases h
        rfl
      · cases h
    · obtain ⟨-, h⟩ := Except.guard_eq_ok.mp h
      dsimp only at h
      split at h
      · cases h
        rfl
      · cases h
        exact (sameRuns_softRemove ..).outputs

/-! ## Operations on artifacts -/

section Steps

variable {s : Store} {op : Op}

/-- A change of the artifact of one attempt, in certain states. -/
theorem outputStep_of_isOf {run : Uuid} {number : Nat} {states : List OutputState}
    {f : OutputRow → OutputRow} (hf : ∀ o, (f o).key = o.key)
    (h : ∀ o : OutputRow, o.state ∈ states →
      OutputStep s op (run, number) (some o) (some (f o))) (k : Uuid × Nat) :
    OutputStep s op k (s.outputs.find k)
      ((s.updateOutputs (OutputRow.isOf run number states) f hf).outputs.find k) := by
  rw [updateOutputs, Table.find_update]
  cases ho : s.outputs.find k with
  | none => exact .keep none
  | some o =>
    rw [Option.map_some]
    split
    · next hof =>
      simp only [OutputRow.isOf, Bool.and_eq_true, decide_eq_true_eq,
        List.contains_iff_mem] at hof
      have hkey : (run, number) = k := by
        rw [← hof.1.1, ← hof.1.2]
        show o.key = k
        exact Table.key_of_find ho
      rw [← hkey]
      exact h o hof.2
    · exact .keep (some o)

theorem outputStep_of_outputs_eq (h : s'.outputs = s.outputs) (k : Uuid × Nat) :
    OutputStep s op k (s.outputs.find k) (s'.outputs.find k) := by
  rw [h]
  exact .keep _

theorem outputStep_congr {s₁ : Store} (h : s'.outputs = s₁.outputs) {k : Uuid × Nat}
    (hstep : OutputStep s op k (s.outputs.find k) (s₁.outputs.find k)) :
    OutputStep s op k (s.outputs.find k) (s'.outputs.find k) := by
  rw [h]
  exact hstep

theorem isOpen_of_mem {o : OutputRow} (h : o.state ∈ [OutputState.pending, .active]) :
    o.isOpen = true := by
  simpa [OutputRow.isOpen] using h

theorem isOpen_of_mem_pending {o : OutputRow} (h : o.state ∈ [OutputState.pending]) :
    o.isOpen = true := by
  simp only [List.mem_singleton] at h
  simp [OutputRow.isOpen, h]

end Steps

theorem outputs_startAttempts {lifetime : Uuid}
    {admitted : List (RunRow × Nat)} (h : s.startAttempts lifetime now admitted = .ok s')
    (k : Uuid × Nat) :
    s'.outputs.find k = s.outputs.find k ∨
      (s.outputs.find k = none ∧ s'.outputs.find k = some (.pending k.1 k.2) ∧
        ∃ x ∈ admitted, x.1.id = k.1) := by
  induction admitted generalizing s with
  | nil =>
    cases h
    exact Or.inl rfl
  | cons head rest ih =>
    unfold startAttempts at h
    split at h
    · cases h
    next s₁ hs₁ =>
    unfold startAttempt at hs₁
    obtain ⟨-, hs₁⟩ := Except.guard_eq_ok.mp hs₁
    split at hs₁
    · next attempts outputs hattempts houtputs =>
      cases hs₁
      -- the update of the run leaves the artifacts alone
      have hfind : outputs.find k = if (head.1.id, head.2) = k
          then some (.pending head.1.id head.2) else s.outputs.find k :=
        Table.find_insert houtputs k
      have hnone : s.outputs.find (head.1.id, head.2) = none :=
        (Table.insert_eq_some houtputs).1
      by_cases hk : (head.1.id, head.2) = k
      · rw [if_pos hk] at hfind
        subst hk
        rcases ih h with heq | ⟨habsent, -⟩
        · refine Or.inr ⟨hnone, heq.trans hfind, head, List.mem_cons_self .., rfl⟩
        · cases hfind.symm.trans habsent
      · rw [if_neg hk] at hfind
        rcases ih h with heq | ⟨habsent, hpending, x, hx, hid⟩
        · exact Or.inl (heq.trans hfind)
        · exact Or.inr ⟨hfind.symm.trans habsent, hpending, x,
            List.mem_cons_of_mem head hx, hid⟩
    · cases hs₁

theorem finishRunRetention_ok {candidate : RunRetentionCandidate}
    (h : s.finishRunRetention candidate = .ok s') :
    s' = s ∨ (s.retentionSafe candidate = true ∧ s' = s.deleteRun candidate.runId) := by
  unfold finishRunRetention at h
  split at h
  · obtain ⟨-, h⟩ := Except.guard_eq_ok.mp h
    cases h
    exact Or.inl rfl
  split at h
  · next hsafe =>
    cases h
    exact Or.inr ⟨hsafe, rfl⟩
  · cases h

theorem of_retentionSafe {candidate : RunRetentionCandidate}
    (h : s.retentionSafe candidate = true) :
    (∃ r, s.runs.find candidate.runId = some r ∧ r.state.isTerminal = true) ∧
      ∀ o ∈ s.outputs.rows, o.runId = candidate.runId → o.state = .pruned ∨ o.state = .missing := by
  simp only [retentionSafe, Bool.and_eq_true, Option.any_eq_true, decide_eq_true_eq,
    Bool.not_eq_true', Table.exist, List.any_eq_false, bne_iff_ne, ne_eq, not_and, not_not] at h
  obtain ⟨⟨r, hr, -, hterminal⟩, houtputs⟩ := h
  refine ⟨⟨r, hr, hterminal⟩, fun o ho hrun => ?_⟩
  by_cases hpruned : o.state = .pruned
  · exact Or.inl hpruned
  · exact Or.inr (houtputs o ho ⟨hrun, hpruned⟩)

/-- **Every committed operation is one step of each artifact.** -/
theorem apply_output {op : Op} (howned : s.Owned) (h : s.apply op = .ok s') (k : Uuid × Nat) :
    OutputStep s op k (s.outputs.find k) (s'.outputs.find k) := by
  cases op with
  | createJob _ | updateJob _ | applyImport _ | setEnabled _ _ _ | removeJob _ _
  | setGlobalConcurrency _ | setRunRetentionCount _ | setRunRetentionAge _ | endLifetime _ _
  | markRunRetentionPending _ _ => exact outputStep_of_outputs_eq (sameRuns_apply rfl h).outputs k
  | enqueueManual job revision snapshot run now =>
    have heffect : OverlapEffect .all s s' := enqueueManual_effect howned (fun _ _ _ => trivial) h
    exact outputStep_of_outputs_eq heffect.outputs k
  | materialize job cursor runs summaries now =>
    obtain ⟨⟨result, s₁⟩, hs₁, rfl⟩ := Except.map_eq_ok.mp h
    have heffect : OverlapEffect .all s s₁ := materialize_effect howned (fun _ _ _ => trivial) hs₁
    exact outputStep_of_outputs_eq heffect.outputs k
  | cancel run now acknowledge =>
    obtain ⟨⟨outcome, s₁⟩, hs₁, rfl⟩ := Except.map_eq_ok.mp h
    exact outputStep_of_outputs_eq (outputs_cancel hs₁) k
  | beginLifetime id now =>
    obtain ⟨⟨stale, s₁⟩, hs₁, rfl⟩ := Except.map_eq_ok.mp h
    exact outputStep_of_outputs_eq (outputs_beginLifetime hs₁) k
  | admitRuns prepared lifetime now guard =>
    obtain ⟨⟨admitted, s₁⟩, hs₁, rfl⟩ := Except.map_eq_ok.mp h
    rcases admitRuns_ok hs₁ with ⟨-, rfl⟩ | ⟨selected, hselected, -, rfl, hstart⟩
    · exact .keep _
    rcases outputs_startAttempts hstart k with heq | ⟨hnone, hpending, x, hx, hid⟩
    · rw [heq]
      exact .keep _
    obtain ⟨r, hr, rfl⟩ := List.mem_map.mp hx
    have hrun : s.runs.find k.1 = some r := hid ▸ Table.find_of_mem (hselected r hr).1
    rw [hnone, hpending]
    exact .insert prepared lifetime now guard rfl (by rw [hrun]; rfl)
  | markAttemptRunning run number now executable =>
    obtain ⟨⟨decision, s₁⟩, hs₁, rfl⟩ := Except.map_eq_ok.mp h
    unfold markAttemptRunning at hs₁
    split at hs₁
    · cases hs₁
    next r hr =>
    have hid : r.id = run := Table.key_of_find hr
    obtain ⟨-, hs₁⟩ := Except.guard_eq_ok.mp hs₁
    split at hs₁
    · obtain ⟨s₂, hs₂, heq⟩ := Except.map_eq_ok.mp hs₁
      cases heq
      unfold cancelBeforeSpawn at hs₂
      obtain ⟨-, hs₂⟩ := Except.guard_eq_ok.mp hs₂
      cases hs₂
      refine outputStep_congr (sameRuns_softRemove ..).outputs ?_
      exact outputStep_of_isOf OutputRow.key_markMissing
        (fun o ho => .giveUp o _ (isOpen_of_mem_pending ho) rfl rfl (by rw [hid]; rfl)) k
    · split at hs₁
      · split at hs₁ <;> cases hs₁
        exact .keep _
      obtain ⟨-, hs₁⟩ := Except.guard_eq_ok.mp hs₁
      cases hs₁
      exact .keep _
  | completeAttempt c => exact outputStep_of_outputs_eq (outputs_completeAttempt h) k
  | completePreExecutionFailure run number output now reason =>
    simp only [apply, completePreExecutionFailure] at h
    obtain ⟨hidentity, h⟩ := Except.guard_eq_ok.mp h
    obtain ⟨-, h⟩ := Except.guard_eq_ok.mp h
    obtain ⟨-, h⟩ := Except.guard_eq_ok.mp h
    obtain ⟨-, h⟩ := Except.guard_eq_ok.mp h
    split at h
    · cases h
    cases h
    refine outputStep_congr (sameRuns_softRemove ..).outputs ?_
    refine outputStep_of_isOf (fun o => by cases output <;> rfl) (fun o ho => ?_) k
    have hopen := isOpen_of_mem_pending ho
    cases output with
    | none => exact .giveUp o _ hopen rfl rfl rfl
    | some record =>
      simp only [Option.any_some, Bool.or_eq_true, bne_iff_ne, ne_eq, not_or,
        not_not] at hidentity
      exact .finalize o record now hopen (Prod.ext hidentity.1 hidentity.2) rfl
  | completeRunnerFailure run number now reason mayHaveStarted =>
    have hlose : ∀ duration, OutputStep s (.completeRunnerFailure run number now reason
        mayHaveStarted) k (s.outputs.find k)
        ((s.applyRunnerFailure run number now duration reason mayHaveStarted).outputs.find k) :=
      fun duration => outputStep_of_isOf OutputRow.key_lose
        (fun o ho => .giveUp o _ (isOpen_of_mem ho) rfl rfl rfl) k
    simp only [apply, completeRunnerFailure] at h
    split at h
    · split at h <;> cases h
    next duration hduration =>
    split at h
    · split at h
      · cases h
      · cases h
        exact outputStep_congr (sameRuns_softRemove ..).outputs (hlose duration)
    · split at h <;> cases h
      exact hlose duration
  | reconcileOutputFinalized output now =>
    simp only [apply, reconcileOutputFinalized] at h
    split at h
    · obtain ⟨-, h⟩ := Except.guard_eq_ok.mp h
      cases h
      exact outputStep_of_isOf OutputRow.key_finalize
        (fun o ho => .finalize o output now (isOpen_of_mem ho) rfl rfl) k
    · split at h <;> cases h
      exact .keep _
  | reconcileOutputMissing run number now =>
    simp only [apply, reconcileOutputMissing] at h
    split at h
    · cases h
      exact outputStep_of_isOf OutputRow.key_lose
        (fun o ho => .giveUp o _ (isOpen_of_mem ho) rfl rfl rfl) k
    · split at h <;> cases h
      exact .keep _
  | markOutputPrunePending run number now =>
    simp only [apply, markOutputPrunePending] at h
    split at h <;> cases h
    refine outputStep_of_isOf _ (fun o ho => ?_) k
    exact .mark o _ now rfl (List.mem_singleton.mp ho) rfl rfl
  | finishOutputPrune run number now =>
    simp only [apply, finishOutputPrune] at h
    split at h
    · cases h
      refine outputStep_of_isOf _ (fun o ho => ?_) k
      exact .prune o _ now rfl (List.mem_singleton.mp ho) rfl rfl
    · split at h <;> cases h
      exact .keep _
  | finishRunRetention candidate =>
    rcases finishRunRetention_ok h with rfl | ⟨hsafe, rfl⟩
    · exact .keep _
    have hfind : (s.deleteRun candidate.runId).outputs.find k
        = (s.outputs.find k).filter (fun o => !decide (o.runId = candidate.runId)) :=
      Table.find_delete s.outputs k
    rw [hfind]
    cases ho : s.outputs.find k with
    | none => exact .keep none
    | some o =>
      have hkey : o.runId = k.1 := congrArg Prod.fst (Table.key_of_find ho)
      by_cases hrun : o.runId = candidate.runId
      · rw [Option.filter_some, if_neg (by simp [hrun])]
        exact .delete o candidate rfl (hrun.symm.trans hkey)
          ((of_retentionSafe hsafe).2 o (Table.mem_of_find ho) hrun)
      · rw [Option.filter_some, if_pos (by simp [hrun])]
        exact .keep (some o)

/-! ## Artifacts and runs -/

theorem run_persists {op : Op} (howned : s.Owned) (h : s.apply op = .ok s')
    {id : Uuid} {r : RunRow} (hr : s.runs.find id = some r) : (∃ r', s'.runs.find id = some r') ∨
      ∃ candidate, op = .finishRunRetention candidate ∧ candidate.runId = id := by
  have hpermitted : Permitted { Permits.all with
      delete := fun r => ∃ candidate, op = .finishRunRetention candidate ∧
        candidate.runId = r.id } s op := by
    refine permitted_of (fun _ _ _ _ => trivial)
      (fun _ _ => ⟨fun _ _ _ => trivial, fun _ _ _ => trivial, fun _ _ _ => trivial⟩)
      (fun _ _ _ _ _ => trivial) (fun candidate r hop hr => ⟨candidate, hop, ?_⟩)
    exact (Table.key_of_find hr).symm
  rcases (apply_effect howned hpermitted h id).persists hr with hpersists | ⟨candidate, hop, hid⟩
  · exact Or.inl hpersists
  · exact Or.inr ⟨candidate, hop, hid.trans (Table.key_of_find hr)⟩

end Store

end Locron
