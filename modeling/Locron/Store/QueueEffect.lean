import Locron.Store.RunEffect

set_option autoImplicit false

/-! # Queueing and admission as steps of runs

The operations that concern several runs at once: materializing occurrences, which makes room for
replacements, and admission. With them every operation is a step of each run.
-/

namespace Locron

variable {permits : Permits}

/-- The operations that leave runs, attempts and artifacts alone. -/
def Op.keepsRuns : Op → Bool
  | .createJob _ | .updateJob _ | .applyImport _ | .setEnabled _ _ _ | .removeJob _ _ => true
  | .setGlobalConcurrency _ | .setRunRetentionCount _ | .setRunRetentionAge _ => true
  | .endLifetime _ _ | .markRunRetentionPending _ _ => true
  | _ => false

/-- The operations that insert runs. -/
def Op.queues : Op → Bool
  | .enqueueManual _ _ _ _ _ | .materialize _ _ _ _ _ => true
  | _ => false

/-! ## The overlap policy -/

/-- Exactly the replacing runs that meet unfinished work are candidates. -/
theorem overlapDecision_candidate {quarantined meetsOverlap : Bool} {activeCount : Nat}
    {policy : SnapshotAdmissionPolicy} :
    (overlapDecision quarantined meetsOverlap activeCount policy).candidate = true ↔
      quarantined = false ∧ meetsOverlap = true ∧ 0 < activeCount ∧ policy.overlap = .replace := by
  unfold overlapDecision
  cases quarantined with
  | true => cases hp : policy.overlap <;> simp
  | false =>
    by_cases hm : (meetsOverlap && decide (0 < activeCount)) = true
    · rw [if_neg (by simp), if_pos hm]
      simp only [Bool.and_eq_true, decide_eq_true_eq] at hm
      cases hp : policy.overlap with
      | skip => simp
      | allow =>
        dsimp only
        split <;> simp [OverlapDecision.queue]
      | replace => simp [hm]
      | other text => simp [OverlapDecision.queue]
    · rw [if_neg (by simp), if_neg hm]
      simp only [Bool.and_eq_true, decide_eq_true_eq, not_and] at hm
      simp only [OverlapDecision.queue, Bool.false_eq_true, false_iff, true_and, not_and]
      intro h₁ h₂
      exact absurd h₂ (hm h₁)

/-- A new run is queued, or it is terminal and no candidate. -/
theorem overlapDecision_state (quarantined meetsOverlap : Bool) (activeCount : Nat)
    (policy : SnapshotAdmissionPolicy) (now : Int) :
    let d := overlapDecision quarantined meetsOverlap activeCount policy
    (d.state = .queued ∧ d.reason = none ∧ d.finishedAt now = none) ∨
      (d.state.isTerminal = true ∧ (d.finishedAt now).isSome = true ∧ d.candidate = false) := by
  unfold overlapDecision
  cases quarantined with
  | true => cases hp : policy.overlap <;> simp [RunState.isTerminal, OverlapDecision.finishedAt]
  | false =>
    rw [if_neg (by simp)]
    split
    · cases hp : policy.overlap with
      | skip => simp [RunState.isTerminal, OverlapDecision.finishedAt]
      | allow =>
        dsimp only
        split <;> simp [OverlapDecision.queue, RunState.isTerminal, OverlapDecision.finishedAt]
      | replace => simp [OverlapDecision.finishedAt]
      | other text => simp [OverlapDecision.queue, OverlapDecision.finishedAt]
    · simp [OverlapDecision.queue, OverlapDecision.finishedAt]

/-- A row with the state, reason, candidacy and finish time of a decision, and no request. -/
theorem RunRow.isNew_of_decision {r : RunRow} {quarantined meetsOverlap : Bool} {activeCount : Nat}
    {policy : SnapshotAdmissionPolicy} {d : OverlapDecision} (now : Int)
    (hd : d = overlapDecision quarantined meetsOverlap activeCount policy)
    (hmeets : meetsOverlap = true → r.trigger ≠ .catchUp)
    (hrequest : r.cancellationRequestedAt = none ∧ r.cancellationReason = none)
    (hrow : r.state = d.state ∧ r.reason = d.reason ∧ r.replacementCandidate = d.candidate ∧
      r.finishedAt = d.finishedAt now) : r.IsNew := by
  obtain ⟨hstate, hreason, hcandidate, hfinished⟩ := hrow
  have hshape := overlapDecision_state quarantined meetsOverlap activeCount policy now
  rw [← hd] at hshape
  refine ⟨hrequest, ?_, ?_⟩
  · rcases hshape with ⟨h₁, h₂, h₃⟩ | ⟨h₁, h₂, -⟩
    · exact Or.inl ⟨hstate.trans h₁, hreason.trans h₂, hfinished.trans h₃⟩
    · exact Or.inr ⟨hstate ▸ h₁, hfinished ▸ h₂⟩
  · intro hc
    rw [hcandidate] at hc
    have hm : meetsOverlap = true := by
      rw [hd] at hc
      exact (overlapDecision_candidate.mp hc).2.1
    rcases hshape with ⟨h₁, -, -⟩ | ⟨-, -, h₃⟩
    · exact ⟨hstate.trans h₁, hmeets hm⟩
    · rw [hc] at h₃
      cases h₃

namespace Store

/-! ## Making room and inserting -/

/-- The second state is some occurrences or requests away from the first, for each run. -/
structure OverlapEffect (permits : Permits) (s s' : Store) : Prop where
  view : ∀ id, Relation.ReflTransGen (OverlapStep permits id) (s.view id) (s'.view id)
  outputs : s'.outputs = s.outputs

variable {s s' : Store}

theorem OverlapEffect.of_sameRuns (h : SameRuns s s') : OverlapEffect permits s s' := by
  refine ⟨fun id => ?_, h.outputs⟩
  rw [h.view id]

theorem OverlapEffect.trans {s'' : Store} (h : OverlapEffect permits s s')
    (h' : OverlapEffect permits s' s'') : OverlapEffect permits s s'' :=
  ⟨fun id => (h.view id).trans (h'.view id), h'.outputs.trans h.outputs⟩

theorem OverlapEffect.effect (h : OverlapEffect permits s s') : Effect permits s s' :=
  fun id => .overlap (h.view id)

/-- A change of the rows that meet a condition, each by one step. -/
theorem OverlapEffect.of_rows {p : RunRow → Bool} {f : RunRow → RunRow} {hf : ∀ r, (f r).id = r.id}
    (h : ∀ r attempts, p r = true →
      OverlapStep permits r.id ⟨some r, attempts⟩ ⟨some (f r), attempts⟩) :
    OverlapEffect permits s (s.updateRuns p f hf) := by
  refine ⟨fun id => ?_, rfl⟩
  rw [view_updateRuns]
  cases hr : (s.view id).run with
  | none =>
    have hv : s.view id = ⟨none, (s.view id).attempts⟩ := by rw [← hr]
    rw [hv]
    exact .refl
  | some r =>
    have hv : s.view id = ⟨some r, (s.view id).attempts⟩ := by rw [← hr]
    obtain rfl : r.id = id := id_of_view hr
    rw [hv]
    simp only [Option.map_some]
    split
    · next hp => exact .single (h r _ hp)
    · exact .refl

theorem supersedeRun_effect (s : Store) (now : Int) (job successor run : Uuid) :
    OverlapEffect permits s (s.supersedeRun now job successor run) := by
  have hrows : OverlapEffect permits (s.deleteRetryIntents (fun i => i.runId = run))
      (s.supersedeRun now job successor run) := by
    refine OverlapEffect.trans (@OverlapEffect.of_rows permits _ _ _ RunRow.id_supersede
      (fun r attempts hp => ?_)) (.of_sameRuns {})
    simp only [Bool.and_eq_true] at hp
    exact .supersede r now hp.2
  exact ⟨hrows.view, hrows.outputs⟩

theorem supersedeForReplacement_effect (s : Store) (job : Uuid) (now : Int) (successor : Uuid) :
    OverlapEffect permits s (s.supersedeForReplacement job now successor) := by
  have hfold : ∀ (runs : List Uuid) (s : Store),
      OverlapEffect permits s
        (runs.foldl (fun s run => s.supersedeRun now job successor run) s) := by
    intro runs
    induction runs with
    | nil => exact fun s => .of_sameRuns {}
    | cons run runs ih =>
      intro s
      exact (supersedeRun_effect s now job successor run).trans (ih _)
  have hrequest : ∀ s : Store, OverlapEffect permits s (s.updateRuns
      (fun r => r.jobId = job && r.state.isLive) (RunRow.requestReplacement now)
      RunRow.id_requestReplacement) := by
    refine fun s => .of_rows (fun r attempts hp => ?_)
    simp only [Bool.and_eq_true] at hp
    exact .requestReplacement r now hp.2
  unfold supersedeForReplacement
  dsimp only
  refine ((hfold (s.supersededRuns job) s).trans (hrequest _)).trans ?_
  split
  · exact .of_sameRuns {}
  · exact .of_sameRuns {}

theorem OverlapEffect.owned (h : OverlapEffect permits s s') (howned : s.Owned) : s'.Owned :=
  fun id => OverlapStep.owned (h.view id) (howned id)

/-- Making room leaves a quarantine alone. -/
theorem keeps_quarantine_of_overlap {id : Uuid} {v v' : RunView}
    (h : Relation.ReflTransGen (OverlapStep permits id) v v') {r : RunRow} (hr : v.run = some r)
    (hquarantined : r.quarantined = true) :
    ∃ r', v'.run = some r' ∧ r'.quarantined = true ∧ r'.jobId = r.jobId := by
  refine OverlapStep.keeps h ?_ (fun _ _ hkept => hkept) hr ⟨hquarantined, rfl⟩
  rintro r₁ now hpending ⟨hquarantined₁, -⟩
  simp only [RunRow.quarantined, Bool.and_eq_true, decide_eq_true_eq] at hquarantined₁
  rw [hquarantined₁.1] at hpending
  cases hpending

variable {job : Uuid}

theorem OverlapEffect.jobQuarantined (h : OverlapEffect permits s s')
    (hjob : s.jobQuarantined job = true) : s'.jobQuarantined job = true := by
  simp only [Store.jobQuarantined, Table.exist_iff, Bool.and_eq_true, decide_eq_true_eq] at hjob ⊢
  obtain ⟨r, hr, hid, hquarantined⟩ := hjob
  obtain ⟨r', hr', hquarantined', hjob'⟩ :=
    keeps_quarantine_of_overlap (h.view r.id) (Table.find_of_mem hr) hquarantined
  exact ⟨r', Table.mem_of_find hr', hjob'.trans hid, hquarantined'⟩

/-- What an occurrence or a request may insert: a new row, and a candidate only while the job is
not in quarantine. -/
def MayInsert (permits : Permits) (s : Store) : Prop :=
  ∀ row : RunRow, row.IsNew →
    (row.replacementCandidate = true → s.jobQuarantined row.jobId = false) → permits.insert row

theorem MayInsert.mono (hmay : MayInsert permits s)
    (h : OverlapEffect permits s s') : MayInsert permits s' := by
  intro row hnew hcandidate
  apply hmay row hnew
  intro hc
  by_contra hq
  have hq' := h.jobQuarantined (by simpa using hq)
  rw [hcandidate hc] at hq'
  cases hq'

variable {row : RunRow}

theorem insertRun_effect (howned : s.Owned) (hnew : row.IsNew)
    (hmay : permits.insert row) (h : s.insertRun row = .ok s') : OverlapEffect permits s s' := by
  unfold insertRun at h
  obtain ⟨-, h⟩ := Except.guard_eq_ok.mp h
  split at h
  · split at h
    · next runs hinsert =>
      cases h
      refine ⟨fun id => ?_, rfl⟩
      have hview : ({ s with runs := runs } : Store).view id
          = { s.view id with run := if row.id = id then some row else (s.view id).run } := by
        simp only [view, Table.find_insert hinsert]
      rw [hview]
      split
      · next hid =>
        have hnone : (s.view id).run = none := hid ▸ (Table.insert_eq_some hinsert).1
        have hv : s.view id = ⟨none, []⟩ := by
          rw [← hnone, ← howned id hnone]
        rw [hv]
        exact .single (.insert row hid hnew hmay)
      · exact .refl
    · cases h
  · cases h

theorem insertRunOrIgnore_effect {inserted : Bool} (howned : s.Owned)
    (hnew : row.IsNew) (hmay : permits.insert row)
    (h : s.insertRunOrIgnore row = .ok (inserted, s')) : OverlapEffect permits s s' := by
  unfold insertRunOrIgnore at h
  split at h
  · cases h
    exact .of_sameRuns {}
  obtain ⟨s₁, hs₁, heq⟩ := Except.map_eq_ok.mp h
  cases heq
  exact insertRun_effect howned hnew hmay hs₁

/-! ## Materializing -/

theorem makeRoom_effect (s : Store) (candidate : Bool) (job : Uuid) (now : Int) (run : Uuid) :
    OverlapEffect permits s (if candidate = true then
      s.takeQueueSequence.2.supersedeForReplacement job now run else s.takeQueueSequence.2) := by
  split
  · exact .trans (.of_sameRuns {}) (supersedeForReplacement_effect _ job now run)
  · exact .of_sameRuns {}

/-- The decision makes a candidate only of a run whose job is not in quarantine. -/
theorem not_quarantined_of_candidate {quarantined meetsOverlap : Bool} {activeCount : Nat}
    {policy : SnapshotAdmissionPolicy}
    (h : (overlapDecision quarantined meetsOverlap activeCount policy).candidate = true) :
    quarantined = false :=
  (overlapDecision_candidate.mp h).1

variable {now : Int}

theorem materializeRun_effect {run : NewScheduledRun}
    {policy : SnapshotAdmissionPolicy} {inserted : Bool} (howned : s.Owned)
    (hmay : MayInsert permits s) (h : s.materializeRun now run policy = .ok (inserted, s')) :
    OverlapEffect permits s s' := by
  unfold materializeRun at h
  dsimp only at h
  have hroom := fun candidate => @makeRoom_effect permits s candidate run.jobId now run.id
  have hnew := RunRow.isNew_of_decision (r := newRunRow run s.nextQueueSequence
    (overlapDecision (s.jobQuarantined run.jobId) (run.trigger != .catchUp)
      (s.activeCount run.jobId) policy) now) now rfl (by simp [newRunRow]) ⟨rfl, rfl⟩
    ⟨rfl, rfl, rfl, rfl⟩
  exact OverlapEffect.trans (hroom _) (insertRunOrIgnore_effect ((hroom _).owned howned) hnew
    (hmay _ hnew not_quarantined_of_candidate) h)

theorem materializeRuns_effect
    {runs : List (NewScheduledRun × SnapshotAdmissionPolicy)} {result result' : MaterializedRun}
    (howned : s.Owned) (hmay : MayInsert permits s)
    (h : s.materializeRuns now runs result = .ok (result', s')) : OverlapEffect permits s s' := by
  induction runs generalizing s result with
  | nil =>
    cases h
    exact .of_sameRuns {}
  | cons run runs ih =>
    unfold materializeRuns at h
    split at h
    · cases h
    · next hrun =>
      have hfirst := materializeRun_effect howned hmay hrun
      exact hfirst.trans (ih (hfirst.owned howned) (hmay.mono hfirst) h)
    next hrun =>
    have hfirst := materializeRun_effect howned hmay hrun
    exact hfirst.trans (ih (hfirst.owned howned) (hmay.mono hfirst) h)

theorem sameRuns_advanceCursor {cursor : CursorUpdate}
    (h : s.advanceCursor job cursor now = .ok s') : SameRuns s s' := by
  unfold advanceCursor at h
  obtain ⟨-, h⟩ := Except.guard_eq_ok.mp h
  dsimp only at h
  split at h
  · cases h
    exact {}
  · cases h
    exact {}

theorem sameRuns_recordSummaries (s : Store) (job : Uuid) (summaries : List ReconciliationSummary)
    (now : Int) : SameRuns s (s.recordSummaries job summaries now) := by
  unfold recordSummaries
  induction summaries generalizing s with
  | nil => exact {}
  | cons x summaries ih => exact SameRuns.trans {} (ih _)

theorem materialize_effect {cursor : CursorUpdate}
    {runs : List NewScheduledRun} {summaries : List ReconciliationSummary}
    {result : MaterializedRun} (howned : s.Owned) (hmay : MayInsert permits s)
    (h : s.materializeWithSummaries job cursor runs summaries now = .ok (result, s')) :
    OverlapEffect permits s s' := by
  unfold materializeWithSummaries at h
  split at h
  · cases h
  obtain ⟨-, h⟩ := Except.guard_eq_ok.mp h
  split at h
  · cases h
  next s₁ hcursor =>
  split at h
  · cases h
  next result₂ s₂ hruns =>
  cases h
  have hfirst : OverlapEffect permits s s₁ := .of_sameRuns (sameRuns_advanceCursor hcursor)
  exact (hfirst.trans (materializeRuns_effect (hfirst.owned howned) (hmay.mono hfirst)
    hruns)).trans (.of_sameRuns (sameRuns_recordSummaries s₂ job summaries now))

theorem enqueueManual_effect {revision : Nat} {snapshot : Snapshot}
    {run : Uuid} (howned : s.Owned) (hmay : MayInsert permits s)
    (h : s.enqueueManual job revision snapshot run now = .ok s') : OverlapEffect permits s s' := by
  unfold enqueueManual at h
  split at h
  · cases h
  next policy _ =>
  split at h
  · cases h
  split at h
  · cases h
  obtain ⟨-, h⟩ := Except.guard_eq_ok.mp h
  dsimp only at h
  obtain ⟨s₁, hs₁, heq⟩ := Except.map_eq_ok.mp h
  cases heq
  have hroom := fun candidate => @makeRoom_effect permits s candidate job now run
  have hnew := RunRow.isNew_of_decision (r := manualRunRow run job revision snapshot
    s.nextQueueSequence (overlapDecision (s.jobQuarantined job) true (s.activeCount job)
      policy) now) now rfl (by simp [manualRunRow]) ⟨rfl, rfl⟩ ⟨rfl, rfl, rfl, rfl⟩
  exact OverlapEffect.trans (hroom _) ((insertRun_effect ((hroom _).owned howned) hnew
    (hmay _ hnew not_quarantined_of_candidate) hs₁).trans (.of_sameRuns {}))

/-! ## Admitting -/

/-- The limit of the run leaves room beside the live runs of its job. -/
def HasRoom (s : Store) (r : RunRow) : Prop :=
  ∃ policy, snapshotAdmissionPolicy r.snapshot = .ok policy ∧
    (s.liveCount r.jobId : Int) < perJobLimit policy

section Selection

variable {s : Store} {prepared : Uuid → Option Snapshot} {capacity : Nat} {rows : List RunRow}

variable {sel sel' : Selection}

theorem selectFirst_ok (h : s.selectFirst prepared row.jobId sel row = .ok sel') :
    sel'.waiting = sel.waiting.eraseP (fun r => r.jobId = row.jobId) ∧
      (sel'.selected = sel.selected ∨ (sel'.selected = sel.selected ++ [row] ∧ s.HasRoom row)) := by
  unfold selectFirst at h
  dsimp only at h
  split at h
  · cases h
    exact ⟨rfl, Or.inl rfl⟩
  split at h
  · cases h
  next policy hpolicy =>
  split at h
  · next hlt =>
    cases h
    refine ⟨rfl, Or.inr ⟨rfl, policy, hpolicy, ?_⟩⟩
    omega
  · cases h
    exact ⟨rfl, Or.inl rfl⟩

variable {jobs : List Uuid}

theorem selectFirst_length (h : s.selectFirst prepared row.jobId sel row = .ok sel') :
    sel'.selected.length ≤ sel.selected.length + 1 := by
  rcases (selectFirst_ok h).2 with heq | ⟨heq, -⟩
  · rw [heq]
    omega
  · rw [heq, List.length_append, List.length_singleton]

section Rule

variable {motive : Selection → Prop} (hstep : ∀ sel sel' row, sel.selected.length < capacity →
  motive sel → row ∈ sel.waiting → s.selectFirst prepared row.jobId sel row = .ok sel' →
  motive sel')

include hstep

theorem selectRound_induction (hroom : sel.selected.length < capacity) (hsel : motive sel)
    (h : s.selectRound prepared capacity jobs sel = .ok sel') : motive sel' := by
  induction jobs generalizing sel with
  | nil =>
    cases h
    exact hsel
  | cons job jobs ih =>
    unfold selectRound at h
    split at h
    · exact ih hroom hsel h
    next row hrow =>
    have hjob : row.jobId = job := by simpa using List.find?_some hrow
    subst hjob
    split at h
    · cases h
    next sel₁ hfirst =>
    have hsel₁ := hstep sel sel₁ row hroom hsel (List.mem_of_find?_eq_some hrow) hfirst
    have hone := selectFirst_length hfirst
    split at h
    · cases h
      exact hsel₁
    · exact ih (by omega) hsel₁ h

/-- **The rule for the selection loop**: it suffices to look at one waiting row, below the
capacity. -/
theorem selectRounds_induction {fuel : Nat} (hsel : motive sel)
    (h : s.selectRounds prepared capacity jobs fuel sel = .ok sel') : motive sel' := by
  induction fuel generalizing sel with
  | zero =>
    cases h
    exact hsel
  | succ fuel ih =>
    unfold selectRounds at h
    split at h
    · cases h
      exact hsel
    next hroom =>
    split at h
    · cases h
    next sel₁ hround =>
    have hsel₁ := selectRound_induction hstep (by omega) hsel hround
    split at h
    · cases h
      exact hsel₁
    · exact ih hsel₁ h

end Rule

theorem selectRounds_selected {fuel : Nat}
    (h : s.selectRounds prepared capacity jobs fuel ⟨rows, []⟩ = .ok sel) :
    ∀ r ∈ sel.selected, r ∈ rows ∧ s.HasRoom r := by
  have hwithin : (∀ r ∈ sel.waiting, r ∈ rows) ∧ ∀ r ∈ sel.selected, r ∈ rows ∧ s.HasRoom r := by
    refine selectRounds_induction (motive := fun sel => (∀ r ∈ sel.waiting, r ∈ rows) ∧
      ∀ r ∈ sel.selected, r ∈ rows ∧ s.HasRoom r) ?_ ⟨fun _ hr => hr, by simp⟩ h
    rintro sel sel' row - ⟨hwaiting, hselected⟩ hrow hfirst
    obtain ⟨hrest, hadded⟩ := selectFirst_ok hfirst
    refine ⟨?_, ?_⟩
    · rw [hrest]
      exact fun r hr => hwaiting r (List.mem_of_mem_eraseP hr)
    · rcases hadded with heq | ⟨heq, hroom⟩
      · rw [heq]
        exact hselected
      rw [heq]
      intro r hr
      rcases List.mem_append.mp hr with hr | hr
      · exact hselected r hr
      · rw [List.mem_singleton.mp hr]
        exact ⟨hwaiting row hrow, hroom⟩
  exact hwithin.2

end Selection

variable {lifetime : Uuid}

theorem startAttempt_ok {run : Uuid}
    {number : Nat} (h : s.startAttempt lifetime now run job number = .ok s') :
    s.attempts.find (run, number) = none ∧
      s'.attempts.rows = s.attempts.rows ++ [.start run number lifetime now] ∧
      ∀ id, s'.view id = ⟨(s.view id).run.map (fun r => if r.id = run && r.state.isPending then
          { r with state := .starting } else r),
        (s.view id).attempts ++ if run = id then [.start run number lifetime now] else []⟩ := by
  unfold startAttempt at h
  dsimp only at h
  obtain ⟨-, h⟩ := Except.guard_eq_ok.mp h
  split at h
  · next attempts outputs hattempts houtputs =>
    cases h
    obtain ⟨hnone, hrows⟩ := Table.insert_eq_some hattempts
    refine ⟨hnone, hrows, ?_⟩
    intro id
    have hrun := congrArg RunView.run (s.view_updateRuns id
      (fun r => r.id = run && r.state.isPending) (fun r => { r with state := .starting })
      (fun _ => rfl))
    simp only [view, RunView.mk.injEq]
    refine ⟨hrun, ?_⟩
    rw [hrows, List.filter_append]
    congr 1
    by_cases hid : run = id
    · simp [AttemptRow.start, hid]
    · simp [AttemptRow.start, hid]
  · cases h

variable {admitted : List (RunRow × Nat)}

/-- No attempt of the list existed before. -/
theorem startAttempts_fresh (h : s.startAttempts lifetime now admitted = .ok s') :
    ∀ x ∈ admitted, s.attempts.find (x.1.id, x.2) = none := by
  induction admitted generalizing s with
  | nil => simp
  | cons y rest ih =>
    obtain ⟨row, number⟩ := y
    unfold startAttempts at h
    split at h
    · cases h
    next s₁ hstart =>
    obtain ⟨hnone, hrows, -⟩ := startAttempt_ok hstart
    intro x hx
    rcases List.mem_cons.mp hx with rfl | hx
    · exact hnone
    have hfresh := Table.find_eq_none.mp (ih h x hx)
    rw [Table.find_eq_none]
    intro a ha
    exact hfresh a (by simp [hrows, ha])

theorem view_startAttempts_of_not_mem (h : s.startAttempts lifetime now admitted = .ok s')
    {id : Uuid} (hid : ∀ x ∈ admitted, x.1.id ≠ id) : s'.view id = s.view id := by
  induction admitted generalizing s with
  | nil =>
    cases h
    rfl
  | cons y rest ih =>
    obtain ⟨row, number⟩ := y
    unfold startAttempts at h
    split at h
    · cases h
    next s₁ hstart =>
    obtain ⟨-, -, hview⟩ := startAttempt_ok hstart
    have hne : row.id ≠ id := hid (row, number) (by simp)
    rw [ih h (fun x hx => hid x (by simp [hx])), hview id, if_neg hne, List.append_nil,
      map_run_eq_self]
    intro r hr
    simp [hr, Ne.symm hne]

/-- Each admitted run gets one attempt: a second one of the same number would not be new. -/
theorem view_startAttempts (number : Uuid → Nat) (hnumber : ∀ x ∈ admitted, x.2 = number x.1.id)
    (h : s.startAttempts lifetime now admitted = .ok s') (hrow : (row, number row.id) ∈ admitted) :
    s'.view row.id = ⟨(s.view row.id).run.map (fun r => if r.id = row.id && r.state.isPending then
        { r with state := .starting } else r),
      (s.view row.id).attempts ++ [.start row.id (number row.id) lifetime now]⟩ := by
  induction admitted generalizing s with
  | nil => simp at hrow
  | cons y rest ih =>
    obtain ⟨head, n⟩ := y
    have hn : n = number head.id := hnumber (head, n) (by simp)
    unfold startAttempts at h
    split at h
    · cases h
    next s₁ hstart =>
    obtain ⟨-, hrows, hview⟩ := startAttempt_ok hstart
    have hfresh := startAttempts_fresh h
    have hne : ∀ x ∈ rest, x.1.id ≠ head.id := by
      intro x hx hid
      have hx2 : x.2 = n := by rw [hnumber x (by simp [hx]), hid, hn]
      refine Table.find_eq_none.mp (hfresh x hx) (.start head.id n lifetime now) ?_ ?_
      · simp [hrows]
      · simp [AttemptRow.key, AttemptRow.start, hid, hx2]
    rcases List.mem_cons.mp hrow with heq | hrest
    · obtain ⟨rfl, -⟩ := Prod.mk.injEq .. |>.mp heq
      rw [view_startAttempts_of_not_mem h hne, hview row.id, if_pos rfl, hn]
    have hid : row.id ≠ head.id := hne _ hrest
    rw [ih (fun x hx => hnumber x (by simp [hx])) h hrest, hview row.id,
      if_neg (Ne.symm hid), List.append_nil]
    congr 2
    apply map_run_eq_self
    intro r hr
    simp [hr, hid]

variable {prepared : Uuid → Option Snapshot} {guard : Nat}

/-- Admission that admits something: the limits leave room, rows are selected, and their attempts
are started. -/
theorem admitRuns_selection (h : s.admitRuns prepared lifetime now guard = .ok (admitted, s')) :
    (s.capacity guard = 0 ∧ admitted = [] ∧ s' = s) ∨ ∃ sel : Selection,
      (1 ≤ s.settings.globalConcurrency ∧ s.settings.globalConcurrency ≤ 64) ∧
      s.capacity guard ≠ 0 ∧
      s.selectRounds prepared (s.capacity guard)
        (s.jobOrder (s.eligibleRuns now (s.capacity guard * 64)))
        ((s.eligibleRuns now (s.capacity guard * 64)).length + 1)
        ⟨s.eligibleRuns now (s.capacity guard * 64), []⟩ = .ok sel ∧
      admitted = sel.selected.map (fun r => (r, s.nextAttemptNumber r.id)) ∧
      s.startAttempts lifetime now admitted = .ok s' := by
  unfold admitRuns at h
  split at h
  · next hguard =>
    cases h
    exact Or.inl ⟨by rw [capacity, hguard, Nat.zero_min], rfl, rfl⟩
  obtain ⟨hrange, h⟩ := Except.guard_eq_ok.mp h
  split at h
  · next hcapacity =>
    cases h
    exact Or.inl ⟨hcapacity, rfl, rfl⟩
  next hcapacity =>
  dsimp only at h
  split at h
  · cases h
  next sel hsel =>
  split at h
  · cases h
  next s₁ hstart =>
  cases h
  exact Or.inr ⟨sel, not_not.mp hrange, hcapacity, hsel, rfl, hstart⟩

theorem of_mem_eligibleRuns {limit : Nat} {r : RunRow}
    (h : r ∈ s.eligibleRuns now limit) : r ∈ s.runs.rows ∧ s.eligible now r = true :=
  List.mem_filter.mp ((List.mem_insertionSort _).mp (List.mem_of_mem_take h))

theorem admitRuns_ok (h : s.admitRuns prepared lifetime now guard = .ok (admitted, s')) :
    (admitted = [] ∧ s' = s) ∨ ∃ selected : List RunRow,
      (∀ r ∈ selected, r ∈ s.runs.rows ∧ s.eligible now r = true ∧ s.HasRoom r) ∧
      s.capacity guard ≠ 0 ∧ admitted = selected.map (fun r => (r, s.nextAttemptNumber r.id)) ∧
      s.startAttempts lifetime now admitted = .ok s' := by
  rcases admitRuns_selection h with ⟨-, hnone⟩ | ⟨sel, -, hcapacity, hsel, hadmitted, hstart⟩
  · exact Or.inl hnone
  refine Or.inr ⟨sel.selected, fun r hr => ?_, hcapacity, hadmitted, hstart⟩
  obtain ⟨hrow, hroom⟩ := selectRounds_selected hsel r hr
  obtain ⟨hmem, hel⟩ := of_mem_eligibleRuns hrow
  exact ⟨hmem, hel, hroom⟩

theorem admitRuns_effect (hmay : ∀ r ∈ s.runs.rows, s.eligible now r = true → permits.start r now)
    (h : s.admitRuns prepared lifetime now guard = .ok (admitted, s')) : Effect permits s s' := by
  rcases admitRuns_ok h with ⟨-, rfl⟩ | ⟨selected, heligible, -, rfl, hstart⟩
  · exact .of_view_eq (fun _ => rfl)
  intro id
  by_cases hid : ∃ r ∈ selected, r.id = id
  · obtain ⟨r, hr, rfl⟩ := hid
    obtain ⟨hmem, hel, -⟩ := heligible r hr
    have hpending : r.state.isPending = true ∧ r.cancellationRequestedAt = none := by
      simp only [eligible, Bool.and_eq_true, decide_eq_true_eq, Option.isNone_iff_eq_none] at hel
      exact ⟨hel.1.1.1.1.1, hel.1.1.1.2⟩
    have hv : s.view r.id = ⟨some r, (s.view r.id).attempts⟩ := by
      rw [← Table.find_of_mem hmem]
      rfl
    rw [view_startAttempts s.nextAttemptNumber (by simp) hstart
      (List.mem_map.mpr ⟨r, hr, rfl⟩), hv]
    simp only [Option.map_some, hpending.1, decide_true, Bool.and_self, if_true]
    exact .start r lifetime now hpending.1 hpending.2 (hmay r hmem hel)
  · rw [view_startAttempts_of_not_mem hstart]
    · exact .keep _
    intro x hx hxid
    obtain ⟨r, hr, rfl⟩ := List.mem_map.mp hx
    exact hid ⟨r, hr, hxid⟩

/-! ## Operations on jobs, settings and outputs -/

variable {origin : RevisionOrigin}

theorem sameRuns_insertRevision {revision : Nat} {definition : Snapshot} {cursor : Int}
    {enabled : Bool} {origin : RevisionOrigin}
    (h : s.insertRevision job revision definition cursor enabled now origin = .ok s') :
    SameRuns s s' := by
  unfold insertRevision at h
  split at h
  · cases h
    exact {}
  · cases h

theorem sameRuns_insertJob {job : CreateJob} {origin : RevisionOrigin}
    (h : s.insertJob job now origin = .ok s') : SameRuns s s' := by
  unfold insertJob at h
  split at h
  · cases h
  · exact SameRuns.trans {} (sameRuns_insertRevision h)

theorem sameRuns_reviseJob {job : UpdateJob} {origin : RevisionOrigin}
    (h : s.reviseJob job now origin = .ok s') : SameRuns s s' :=
  SameRuns.trans {} (sameRuns_insertRevision h)

theorem sameRuns_applyImportJob {job : ImportJob} (h : s.applyImportJob now job = .ok s') :
    SameRuns s s' := by
  cases job with
  | create resolution job =>
    obtain ⟨-, h⟩ := Except.guard_eq_ok.mp h
    obtain ⟨s₁, hs₁, h⟩ := Except.bind_eq_ok.mp h
    cases h
    exact (sameRuns_insertJob hs₁).trans {}
  | update resolution job =>
    obtain ⟨-, h⟩ := Except.guard_eq_ok.mp h
    obtain ⟨s₁, hs₁, h⟩ := Except.bind_eq_ok.mp h
    cases h
    exact (sameRuns_reviseJob hs₁).trans {}
  | verify resolution job =>
    cases h
    exact {}

theorem sameRuns_applyImportJobs {jobs : List ImportJob}
    (h : s.applyImportJobs now jobs = .ok s') : SameRuns s s' := by
  induction jobs generalizing s with
  | nil =>
    cases h
    exact {}
  | cons job jobs ih =>
    unfold applyImportJobs at h
    split at h
    · cases h
    · next s₁ hs₁ => exact (sameRuns_applyImportJob hs₁).trans (ih h)

theorem sameRuns_apply {op : Op} (hop : op.keepsRuns = true) (h : s.apply op = .ok s') :
    SameRuns s s' := by
  cases op with
  | createJob job =>
    obtain ⟨-, h⟩ := Except.guard_eq_ok.mp h
    obtain ⟨s₁, hs₁, h⟩ := Except.bind_eq_ok.mp h
    cases h
    exact (sameRuns_insertJob hs₁).trans {}
  | updateJob job =>
    simp only [apply, updateJob] at h
    split at h
    · cases h
    obtain ⟨-, h⟩ := Except.guard_eq_ok.mp h
    obtain ⟨-, h⟩ := Except.guard_eq_ok.mp h
    obtain ⟨s₁, hs₁, h⟩ := Except.bind_eq_ok.mp h
    cases h
    exact (sameRuns_reviseJob hs₁).trans {}
  | applyImport batch =>
    simp only [apply, applyImport] at h
    split at h
    · cases h
    split at h
    · cases h
    split at h
    · cases h
    next s₁ hs₁ =>
    cases h
    exact (sameRuns_applyImportJobs hs₁).trans {}
  | setEnabled job enabled now =>
    simp only [apply, setEnabled] at h
    split at h
    · cases h
    · split_ifs at h <;> cases h <;> exact {}
  | removeJob job now =>
    simp only [apply, removeJob] at h
    split at h <;> cases h
    exact {}
  | setGlobalConcurrency value | setRunRetentionCount value | setRunRetentionAge value =>
    simp only [apply, setGlobalConcurrency, setRunRetentionCount, setRunRetentionAge] at h
    split at h <;> cases h
    exact {}
  | endLifetime id now =>
    cases h
    exact {}
  | markRunRetentionPending candidate now =>
    simp only [apply, markRunRetentionPending] at h
    split_ifs at h <;> cases h <;> exact {}
  | _ => cases hop

/-- A deleted run leaves nothing; the others keep everything. -/
theorem view_deleteRun (s : Store) (run id : Uuid) :
    (s.deleteRun run).view id = if run = id then ⟨none, []⟩ else s.view id := by
  have hrun : (s.deleteRun run).runs.find id
      = (s.runs.find id).filter (fun r => !decide (r.id = run)) := Table.find_delete s.runs id
  have hattempts : (s.deleteRun run).attempts.rows.filter (fun a => a.runId = id)
      = s.attempts.rows.filter (fun a => decide (a.runId = id) && !decide (a.runId = run)) :=
    List.filter_filter ..
  unfold view
  rw [hrun, hattempts]
  by_cases hid : run = id
  · subst hid
    rw [if_pos rfl]
    congr 1
    · cases hr : s.runs.find run with
      | none => rfl
      | some r => simp [Option.filter, Table.key_of_find hr]
    · simp
  · rw [if_neg hid]
    congr 1
    · cases hr : s.runs.find id with
      | none => rfl
      | some r =>
        have hne : ¬ r.id = run := fun h => hid (h.symm.trans (Table.key_of_find hr))
        simp [Option.filter, hne]
    · apply List.filter_congr
      intro a _
      by_cases ha : a.runId = id
      · simp [ha, Ne.symm hid]
      · simp [ha]

theorem finishRunRetention_effect {candidate : RunRetentionCandidate}
    (hmay : ∀ r, s.runs.find candidate.runId = some r → permits.delete r)
    (h : s.finishRunRetention candidate = .ok s') : Effect permits s s' := by
  unfold finishRunRetention at h
  split at h
  · obtain ⟨-, h⟩ := Except.guard_eq_ok.mp h
    cases h
    exact .of_view_eq (fun _ => rfl)
  split at h
  · next hsafe =>
    cases h
    simp only [retentionSafe, Bool.and_eq_true, Option.any_eq_true, decide_eq_true_eq] at hsafe
    obtain ⟨⟨r, hr, -, hterminal⟩, -⟩ := hsafe
    apply Effect.of_run candidate.runId
    · intro id hid
      rw [view_deleteRun, if_neg (Ne.symm hid)]
    · have hv : s.view candidate.runId = ⟨some r, (s.view candidate.runId).attempts⟩ := by
        rw [← hr]
        rfl
      rw [view_deleteRun, if_pos rfl, hv]
      exact .delete r hterminal (hmay r hr)
  · cases h

/-! ## All operations -/

def Permitted (permits : Permits) (s : Store) : Op → Prop
  | .enqueueManual _ _ _ _ _ => MayInsert permits s
  | .materialize _ _ _ _ _ => MayInsert permits s
  | .completeAttempt c => PermitsCompletion permits s c
  | .cancel run _ acknowledge =>
    acknowledge = true → ∀ r, s.runs.find run = some r → permits.acknowledge r
  | .finishRunRetention candidate =>
    ∀ r, s.runs.find candidate.runId = some r → permits.delete r
  | .admitRuns _ _ now _ => ∀ r ∈ s.runs.rows, s.eligible now r = true → permits.start r now
  | _ => True

/-- Each permission concerns operations of one kind; where it is not given, everything is
permitted. -/
theorem permitted_of {op : Op}
    (hinsert : op.queues = true → MayInsert permits s := by exact fun _ _ _ _ => trivial)
    (hcompletion : ∀ c, op = .completeAttempt c → PermitsCompletion permits s c := by
      exact fun _ _ => ⟨fun _ _ _ => trivial, fun _ _ _ => trivial, fun _ _ _ => trivial⟩)
    (hacknowledge : ∀ run now r, op = .cancel run now true → s.runs.find run = some r →
      permits.acknowledge r := by exact fun _ _ _ _ _ => trivial)
    (hdelete : ∀ candidate r, op = .finishRunRetention candidate →
      s.runs.find candidate.runId = some r → permits.delete r := by exact fun _ _ _ _ => trivial)
    (hstart : ∀ prepared lifetime now guard, op = .admitRuns prepared lifetime now guard →
      ∀ r ∈ s.runs.rows, s.eligible now r = true → permits.start r now := by
        exact fun _ _ _ _ _ _ _ _ => trivial) : Permitted permits s op := by
  cases op with
  | enqueueManual _ _ _ _ _ | materialize _ _ _ _ _ => exact hinsert rfl
  | completeAttempt c => exact hcompletion c rfl
  | cancel run now acknowledge =>
    rintro rfl r hr
    exact hacknowledge run now r rfl hr
  | finishRunRetention candidate => exact fun r hr => hdelete candidate r rfl hr
  | admitRuns prepared lifetime now guard => exact hstart prepared lifetime now guard rfl
  | _ => trivial

theorem permitted_all (s : Store) (op : Op) : Permitted .all s op := permitted_of

theorem permitted_ofRetry {mayRetry : RunRow → String → Prop} {op : Op}
    (h : ∀ c, op = .completeAttempt c → c.retry.isSome = true →
      ∀ r, s.runs.find c.runId = some r → mayRetry r c.reason) :
    Permitted (.ofRetry mayRetry) s op :=
  permitted_of (fun _ _ _ _ => trivial)
    (fun c hop => ⟨h c hop, fun _ _ _ => trivial, fun _ _ _ => trivial⟩)

/-- **Every committed operation is one step of each run.** -/
theorem apply_effect {op : Op} (howned : s.Owned) (hop : Permitted permits s op)
    (h : s.apply op = .ok s') : Effect permits s s' := by
  cases op with
  | createJob _ | updateJob _ | applyImport _ | setEnabled _ _ _ | removeJob _ _
  | setGlobalConcurrency _ | setRunRetentionCount _ | setRunRetentionAge _ | endLifetime _ _
  | markRunRetentionPending _ _ => exact .of_view_eq (sameRuns_apply rfl h).view
  | enqueueManual job revision snapshot run now => exact (enqueueManual_effect howned hop h).effect
  | materialize job cursor runs summaries now =>
    obtain ⟨⟨result, s₁⟩, hs₁, rfl⟩ := Except.map_eq_ok.mp h
    exact (materialize_effect howned hop hs₁).effect
  | cancel run now acknowledge =>
    obtain ⟨⟨outcome, s₁⟩, hs₁, rfl⟩ := Except.map_eq_ok.mp h
    exact cancelWithAcknowledgement_effect hop hs₁
  | beginLifetime id now =>
    obtain ⟨⟨stale, s₁⟩, hs₁, rfl⟩ := Except.map_eq_ok.mp h
    exact beginLifetime_effect hs₁
  | admitRuns prepared lifetime now guard =>
    obtain ⟨⟨admitted, s₁⟩, hs₁, rfl⟩ := Except.map_eq_ok.mp h
    exact admitRuns_effect hop hs₁
  | markAttemptRunning run number now executable =>
    obtain ⟨⟨decision, s₁⟩, hs₁, rfl⟩ := Except.map_eq_ok.mp h
    exact markAttemptRunning_effect hs₁
  | completeAttempt c => exact completeAttempt_effect howned hop h
  | completePreExecutionFailure run number output now reason =>
    exact completePreExecutionFailure_effect h
  | completeRunnerFailure run number now reason mayHaveStarted =>
    exact completeRunnerFailure_effect h
  | reconcileOutputFinalized _ _ | reconcileOutputMissing _ _ _ | markOutputPrunePending _ _ _
  | finishOutputPrune _ _ _ =>
    simp only [apply, reconcileOutputFinalized, reconcileOutputMissing, markOutputPrunePending,
      finishOutputPrune] at h
    split_ifs at h <;> cases h <;> exact .of_view_eq (fun _ => rfl)
  | finishRunRetention candidate => exact finishRunRetention_effect hop h

theorem Effect.owned (h : Effect permits s s') (howned : s.Owned) : s'.Owned :=
  fun id => (h id).owned (howned id)

/-- In every reachable state each attempt belongs to a run. -/
theorem Reachable.owned {allowed : Store → Op → Prop} (h : Reachable allowed s) :
    s.Owned := by
  refine h.induction (motive := Owned) (fun _ _ => rfl) ?_
  intro s s' op howned _ happly
  exact (apply_effect howned (permitted_all s op) happly).owned howned

/-- **What the steps of a run preserve holds of each run in every reachable state.** -/
theorem Reachable.view_induction {allowed : Store → Op → Prop}
    (hallowed : ∀ s op, allowed s op → Permitted permits s op) {motive : RunView → Prop}
    (hinit : motive ⟨none, []⟩)
    (hstep : ∀ {id : Uuid} {v v' : RunView}, motive v → RunStep permits id v v' → motive v')
    (h : Reachable allowed s) (id : Uuid) : motive (s.view id) := by
  induction h with
  | refl => exact hinit
  | tail hs hlast ih =>
    obtain ⟨op, hop, happly⟩ := hlast
    exact hstep ih (apply_effect (Reachable.owned hs) (hallowed _ op hop) happly id)

end Store

end Locron
