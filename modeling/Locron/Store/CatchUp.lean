import Locron.Store.Positions

set_option autoImplicit false

/-! # Catch-up runs in the queue

A catch-up run waits for every unfinished run of its job that was queued before it. If the catch-up
runs of a job are queued in the order of their nominal times, admission therefore finds at most one
of them to start, and it is the earliest one that is left.
-/

namespace Locron

namespace RunRow

/-- Both runs have a nominal time, and that of `r` is the earlier one. -/
def NominalBefore (r r' : RunRow) : Prop :=
  ∃ t t', r.nominal = some t ∧ r'.nominal = some t' ∧ t < t'

/-- The runs are the same, or queued in the order of their nominal times. -/
def QueuedInOrder (r r' : RunRow) : Prop :=
  r.id = r'.id ∨ (r.queueSequence < r'.queueSequence ∧ r.NominalBefore r') ∨
    (r'.queueSequence < r.queueSequence ∧ r'.NominalBefore r)

variable {r r' q q' : RunRow}

theorem NominalBefore.congr (h : r.NominalBefore r') (hq : q.nominal = r.nominal)
    (hq' : q'.nominal = r'.nominal) : q.NominalBefore q' := by
  obtain ⟨t, t', ht, ht', hlt⟩ := h
  exact ⟨t, t', hq.trans ht, hq'.trans ht', hlt⟩

theorem QueuedInOrder.sameRun (h : r.QueuedInOrder r') (hq : r.SameRun q) (hq' : r'.SameRun q') :
    q.QueuedInOrder q' := by
  rcases h with hid | ⟨hlt, hbefore⟩ | ⟨hlt, hbefore⟩
  · exact Or.inl (hq.id.trans (hid.trans hq'.id.symm))
  · refine Or.inr (Or.inl ⟨?_, hbefore.congr hq.nominal hq'.nominal⟩)
    rw [hq.queueSequence, hq'.queueSequence]
    exact hlt
  refine Or.inr (Or.inr ⟨?_, hbefore.congr hq'.nominal hq.nominal⟩)
  rw [hq.queueSequence, hq'.queueSequence]
  exact hlt

end RunRow

namespace Store

/-! ## Admission -/

section Admission

variable {s : Store} {now : Int} {r : RunRow}

theorem pending_of_eligible (h : s.eligible now r = true) : r.state.isPending = true := by
  simp only [eligible, Bool.and_eq_true] at h
  exact h.1.1.1.1.1

theorem terminal_of_eligible (h : s.eligible now r = true) (htrigger : r.trigger = .catchUp)
    {earlier : RunRow} (hearlier : earlier ∈ s.runs.rows) (hjob : earlier.jobId = r.jobId)
    (hlt : earlier.queueSequence < r.queueSequence) : earlier.state.isTerminal = true := by
  simp only [eligible, Bool.and_eq_true] at h
  have hnone := h.2
  rw [Bool.or_eq_true] at hnone
  rcases hnone with hne | hnone
  · simp [htrigger] at hne
  rw [Bool.not_eq_true', ← Bool.not_eq_true, Table.exist_iff] at hnone
  have hidle : ¬ (earlier.state.isPending || earlier.state.isLive) = true := fun hactive =>
    hnone ⟨earlier, hearlier, by simp [hjob, hlt, hactive]⟩
  revert hidle
  cases earlier.state <;> decide

theorem eligible_of_admitted {prepared : Uuid → Option Snapshot} {lifetime : Uuid} {guard : Nat}
    {admitted : List (RunRow × Nat)} {s' : Store}
    (h : s.admitRuns prepared lifetime now guard = .ok (admitted, s')) {x : RunRow × Nat}
    (hx : x ∈ admitted) : x.1 ∈ s.runs.rows ∧ s.eligible now x.1 = true := by
  rcases admitRuns_ok h with ⟨rfl, -⟩ | ⟨selected, hselected, -, rfl, -⟩
  · cases hx
  · obtain ⟨r, hr, rfl⟩ := List.mem_map.mp hx
    exact ⟨(hselected r hr).1, (hselected r hr).2.1⟩

end Admission

/-! ## The order of the queue -/

/-- The catch-up runs of each job are queued in the order of their nominal times. -/
def CatchUpsInOrder (s : Store) : Prop :=
  ∀ r ∈ s.runs.rows, ∀ r' ∈ s.runs.rows, r.trigger = .catchUp → r'.trigger = .catchUp →
    r.jobId = r'.jobId → r.QueuedInOrder r'

namespace CatchUpsInOrder

variable {s s' : Store}

theorem before_of_eligible (h : s.CatchUpsInOrder) {now : Int} {r r' : RunRow}
    (hr : r ∈ s.runs.rows) (heligible : s.eligible now r = true) (htrigger : r.trigger = .catchUp)
    (hr' : r' ∈ s.runs.rows) (htrigger' : r'.trigger = .catchUp) (hjob : r'.jobId = r.jobId)
    (hlasting : r'.state.isTerminal = false) : r = r' ∨ r.NominalBefore r' := by
  rcases h r hr r' hr' htrigger htrigger' hjob.symm with hid | ⟨-, hbefore⟩ | ⟨hlt, -⟩
  · exact Or.inl (s.runs.eq_of_key_eq hr hr' hid)
  · exact Or.inr hbefore
  · rw [terminal_of_eligible heligible htrigger hr' hjob hlt] at hlasting
    cases hlasting

theorem of_continues (h : s.CatchUpsInOrder) (hrows : ∀ r' ∈ s'.runs.rows,
    r'.trigger = .catchUp → ∃ r ∈ s.runs.rows, r.SameRun r') : s'.CatchUpsInOrder := by
  intro q hq q' hq' ht ht' hjob
  obtain ⟨r, hr, hsame⟩ := hrows q hq ht
  obtain ⟨r', hr', hsame'⟩ := hrows q' hq' ht'
  rw [hsame.trigger] at ht
  rw [hsame'.trigger] at ht'
  rw [hsame.jobId, hsame'.jobId] at hjob
  exact (h r hr r' hr' ht ht' hjob).sameRun hsame hsame'

/-- A row at the end of the queue, with a later nominal time than the catch-up runs of its job. -/
theorem append {row : RunRow} (h : s.CatchUpsInOrder)
    (hlater : ∀ r ∈ s.runs.rows, r.trigger = .catchUp → r.jobId = row.jobId →
      r.queueSequence < row.queueSequence ∧ r.NominalBefore row)
    (hrows : s'.runs.rows = s.runs.rows ++ [row]) : s'.CatchUpsInOrder := by
  intro r hr r' hr' ht ht' hjob
  rw [hrows, List.mem_append, List.mem_singleton] at hr hr'
  rcases hr with hr | rfl
  · rcases hr' with hr' | rfl
    · exact h r hr r' hr' ht ht' hjob
    · exact Or.inr (Or.inl (hlater r hr ht hjob))
  rcases hr' with hr' | rfl
  · exact Or.inr (Or.inr (hlater r' hr' ht' hjob.symm))
  · exact Or.inl rfl

/-! ## Materializing in order -/

theorem materializeRun {now : Int} {run : NewScheduledRun} {policy : SnapshotAdmissionPolicy}
    {inserted : Bool} (h : s.CatchUpsInOrder) (hlinked : s.Linked)
    (hlater : ∀ r ∈ s.runs.rows, r.trigger = .catchUp → r.jobId = run.jobId →
      ∃ t, r.nominal = some t ∧ t < run.nominal)
    (hrun : s.materializeRun now run policy = .ok (inserted, s')) : s'.CatchUpsInOrder := by
  have hrows := (materializeRun_ok hrun).2.2.2.2
  rw [← rows_room s run.jobId now run.id] at hrows
  have hroom : ∀ r' ∈ (s.room run.jobId now run.id
      (s.decision run.jobId (run.trigger != .catchUp) policy).candidate).runs.rows,
      ∃ r ∈ s.runs.rows, r.SameRun r' := by
    intro r' hr'
    rw [rows_room] at hr'
    exact sameRun_of_mem_roomRows hr'
  have hordered := h.of_continues fun r' hr' _ => hroom r' hr'
  cases inserted with
  | false =>
    rw [if_neg Bool.false_ne_true, List.append_nil] at hrows
    exact hordered.of_continues fun r' hr' _ => ⟨r', hrows ▸ hr', .refl r'⟩
  | true =>
    rw [if_pos rfl] at hrows
    refine hordered.append ?_ hrows
    -- the new row has the next number of the queue
    intro r' hr' htrigger hjob
    obtain ⟨r, hr, hsame⟩ := hroom r' hr'
    rw [hsame.trigger] at htrigger
    rw [hsame.jobId] at hjob
    obtain ⟨t, hnominal, hlt⟩ := hlater r hr htrigger hjob
    refine ⟨?_, t, run.nominal, hsame.nominal.trans hnominal, rfl, hlt⟩
    rw [hsame.queueSequence]
    exact hlinked.sequence r hr

/-- A batch of increasing occurrences, all later than the catch-up runs of their job. -/
theorem materializeRuns {now : Int} {job : Uuid}
    {runs : List (NewScheduledRun × SnapshotAdmissionPolicy)} {result result' : MaterializedRun}
    (hjob : ∀ x ∈ runs, x.1.jobId = job)
    (hsorted : runs.Pairwise (fun x y => x.1.nominal < y.1.nominal)) (h : s.CatchUpsInOrder)
    (hlinked : s.Linked)
    (hlater : ∀ r ∈ s.runs.rows, r.trigger = .catchUp → r.jobId = job → ∀ x ∈ runs,
      ∃ t, r.nominal = some t ∧ t < x.1.nominal)
    (hruns : s.materializeRuns now runs result = .ok (result', s')) : s'.CatchUpsInOrder := by
  induction runs generalizing s result with
  | nil =>
    cases hruns
    exact h
  | cons x runs ih =>
    obtain ⟨run, policy⟩ := x
    have hown : run.jobId = job := hjob (run, policy) (by simp)
    obtain ⟨hhead, htail⟩ := List.pairwise_cons.mp hsorted
    have hstep : ∀ {inserted : Bool} {s₁ : Store},
        s.materializeRun now run policy = .ok (inserted, s₁) → s₁.CatchUpsInOrder ∧ s₁.Linked ∧
        ∀ r ∈ s₁.runs.rows, r.trigger = .catchUp → r.jobId = job → ∀ x ∈ runs,
          ∃ t, r.nominal = some t ∧ t < x.1.nominal := by
      intro inserted s₁ hrun
      refine ⟨h.materializeRun hlinked ?_ hrun, hlinked.materializeRun hrun, ?_⟩
      · intro r hr htrigger hr'
        exact hlater r hr htrigger (hr'.trans hown) (run, policy) (by simp)
      · intro r' hr' htrigger hr'job x hx
        rcases row_materializeRun hrun hr' with ⟨r, hr, hsame⟩ | ⟨-, -, -, -, hnominal⟩
        · rw [hsame.nominal]
          rw [hsame.trigger] at htrigger
          rw [hsame.jobId] at hr'job
          exact hlater r hr htrigger hr'job x (List.mem_cons_of_mem _ hx)
        · exact ⟨run.nominal, hnominal, hhead x hx⟩
    unfold Store.materializeRuns at hruns
    split at hruns
    · cases hruns
    · next hrun =>
      obtain ⟨h₁, h₂, h₃⟩ := hstep hrun
      exact ih (fun x hx => hjob x (by simp [hx])) htail h₁ h₂ h₃ hruns
    next hrun =>
    obtain ⟨h₁, h₂, h₃⟩ := hstep hrun
    exact ih (fun x hx => hjob x (by simp [hx])) htail h₁ h₂ h₃ hruns

/-- **A materialization queues in order** what a reconciliation selected in order, if all of it is
later than the catch-up runs of the job. -/
theorem materialize {job : Uuid} {cursor : CursorUpdate} {runs : List NewScheduledRun}
    {summaries : List ReconciliationSummary} {now : Int} {result : MaterializedRun}
    (h : s.CatchUpsInOrder) (hlinked : s.Linked)
    (hsorted : runs.Pairwise (fun x y => x.nominal < y.nominal))
    (hlater : ∀ r ∈ s.runs.rows, r.trigger = .catchUp → r.jobId = job → ∀ x ∈ runs,
      ∃ t, r.nominal = some t ∧ t < x.nominal)
    (hcommit : s.materializeWithSummaries job cursor runs summaries now = .ok (result, s')) :
    s'.CatchUpsInOrder := by
  obtain ⟨prepared, s₁, s₂, hprepared, hcursor, hruns, rfl⟩ := materialize_ok hcommit
  obtain ⟨-, hsame, -⟩ := advanceCursor_ok hcursor
  obtain ⟨hfst, hall⟩ := of_preparePolicies hprepared
  have hmem : ∀ x ∈ prepared, x.1 ∈ runs := by
    intro x hx
    rw [← hfst]
    exact List.mem_map.mpr ⟨x, hx, rfl⟩
  have h₁ : s₁.CatchUpsInOrder := h.of_continues fun r hr _ => ⟨r, hsame ▸ hr, .refl r⟩
  have h₂ : s₂.CatchUpsInOrder := by
    refine h₁.materializeRuns (fun x hx => (hall x hx).1) ?_ (hlinked.advanceCursor hcursor) ?_
      hruns
    · rw [← hfst, List.pairwise_map] at hsorted
      exact hsorted
    · intro r hr htrigger hjob x hx
      rw [hsame] at hr
      exact hlater r hr htrigger hjob x.1 (hmem x hx)
  refine h₂.of_continues fun r hr _ => ⟨r, ?_, .refl r⟩
  rwa [(recordSummaries_keeps s₂ job summaries now).2.1] at hr

end CatchUpsInOrder

end Store

end Locron
