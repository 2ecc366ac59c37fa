import Locron.Store.Replacement

set_option autoImplicit false

/-! # Dry runs of a manual request

The command line, the dashboard and the tool server answer a dry run from the number of unfinished
runs and the overlap policy of the job. The manual request itself also looks at the quarantine, the
limit of the job, the candidate index and the runs that would give way, so the two agree exactly in
the states of `Foreseen` (`dryRun_predicts_iff`).
-/

namespace Locron

/-- The answers of a dry run. -/
inductive RunDecision where
  | eligible
  | wouldSkipOverlap
  | wouldReplace
  | eligibleSubjectToCapacity
deriving DecidableEq, Repr

/-- The decision, which all three surfaces make in the same way. -/
def runDecision (active : Nat) (overlap : OverlapPolicy) : RunDecision :=
  if active = 0 then .eligible
  else match overlap with
    | .skip => .wouldSkipOverlap
    | .replace => .wouldReplace
    | .allow => .eligibleSubjectToCapacity

/-- The JSON answer of the command line and of the dashboard. -/
structure RunAnswer where
  dryRun : Bool
  durable : Bool
  decision : RunDecision
  capacityReserved : Bool
deriving DecidableEq, Repr

structure ToolRunAnswer where
  dryRun : Bool
  eligible : Bool
  decision : RunDecision
deriving DecidableEq, Repr

namespace Cli

def runJob (s : Store) (job : Uuid) : Except StoreError RunAnswer :=
  match s.readJob job with
  | none => .error (.notFound (toString job))
  | some record =>
    match record.definition.definition with
    | none => .error (.json "invalid job definition")
    | some definition =>
      .ok ⟨true, false, runDecision (s.activeCount job) definition.policy.overlap, false⟩

end Cli

namespace Dashboard

/-- Without a database there is nothing to ask. -/
def jobsRun (store : Option Store) (job : Uuid) : Except (String ⊕ StoreError) RunAnswer :=
  match store with
  | none => .error (.inl "state database does not exist")
  | some s =>
    match s.readJob job with
    | none => .error (.inr (.notFound (toString job)))
    | some record =>
      match record.definition.definition with
      | none => .error (.inr (.json "invalid job definition"))
      | some definition =>
        .ok ⟨true, false, runDecision (s.activeCount job) definition.policy.overlap, false⟩

end Dashboard

namespace Mcp

def toolRunJob (s : Store) (job : Uuid) : Except StoreError ToolRunAnswer :=
  match s.readJob job with
  | none => .error (.notFound (toString job))
  | some record =>
    match record.definition.definition with
    | none => .error (.json "invalid job definition")
    | some definition =>
      let active := s.activeCount job
      .ok ⟨true, active == 0 || definition.policy.overlap != .skip,
        runDecision active definition.policy.overlap⟩

end Mcp

namespace Store

/-! ## What a manual request does -/

section Outcome

variable (s s' : Store) (job run : Uuid)

/-- The run is queued beside the others, which are left alone. -/
def Joins : Prop :=
  ∃ r, s'.runs.find run = some r ∧ r.state = .queued ∧ r.replacementCandidate = false ∧
    ∀ id, id ≠ run → s'.runs.find id = s.runs.find id

def RecordsSkip : Prop :=
  ∃ r, s'.runs.find run = some r ∧ (r.state = .skippedOverlap ∨ r.state = .skippedConcurrency)

/-- The run is queued as the candidate of the job in place of unfinished work, which is superseded
or asked to stop. -/
def TakesPlace : Prop :=
  ∃ r, s'.runs.find run = some r ∧ r.state = .queued ∧ r.replacementCandidate = true ∧
    ∃ old ∈ s.runs.rows, old.jobId = job ∧ (old.state.isPending = true ∨ old.state.isLive = true) ∧
      ∃ new, s'.runs.find old.id = some new ∧ (new.state = .skippedOverlap ∨
        new.state.isLive = true ∧ new.cancellationRequestedAt.isSome = true)

def RecordsFailure : Prop := ∃ r, s'.runs.find run = some r ∧ r.state = .failed

/-- The decision names what the request does. Every decision is one of the three, so none of them
fits a run that is recorded as failed. -/
structure Predicts (decision : RunDecision) : Prop where
  eligible : decision = .eligible ∨ decision = .eligibleSubjectToCapacity ↔ s.Joins s' run
  skips : decision = .wouldSkipOverlap ↔ s'.RecordsSkip run
  replaces : decision = .wouldReplace ↔ s.TakesPlace s' job run
  succeeds : ¬ s'.RecordsFailure run

end Outcome

def SomeGivesWay (s : Store) (job : Uuid) : Prop :=
  ∃ r ∈ s.runs.rows, r.jobId = job ∧ (r.superseded = true ∨ r.state.isLive = true)

/-- The states in which the answer of a dry run is right. -/
def Foreseen (s : Store) (job : Uuid) (policy : ExecutionPolicy) : Prop :=
  s.activeCount job = 0 ∨
    match policy.overlap with
    | .skip => True
    | .allow => s.jobQuarantined job = false ∧ s.activeCount job < policy.perJobConcurrency
    | .replace => s.jobQuarantined job = false ∧ s.spentCandidate job = false ∧ s.SomeGivesWay job

/-- A quarantined run is an unfinished one. -/
theorem jobQuarantined_of_activeCount {s : Store} {job : Uuid} (h : s.activeCount job = 0) :
    s.jobQuarantined job = false := by
  by_contra hquarantined
  rw [Bool.not_eq_false, jobQuarantined_iff] at hquarantined
  obtain ⟨r, hr, hjob, hq⟩ := hquarantined
  have hlive := RunRow.live_of_quarantined hq
  unfold activeCount Table.count at h
  exact List.countP_eq_zero.mp h r hr (by simp [hjob, hlive])

/-! ## What the decision makes of the request -/

section Enqueued

variable {s s' : Store} {job run : Uuid} {revision : Nat} {snapshot : Snapshot} {now : Int}
  {d : OverlapDecision}
  (hrows : s'.runs.rows = s.roomRows job now d.candidate ++
    [manualRunRow run job revision snapshot s.nextQueueSequence d now])

include hrows in
theorem find_enqueued : s'.runs.find run =
    some (manualRunRow run job revision snapshot s.nextQueueSequence d now) := by
  refine Table.find_eq_some.mpr ⟨?_, rfl⟩
  rw [hrows]
  exact List.mem_append_right _ List.mem_cons_self

include hrows in
/-- Another run is found where room was made. -/
theorem find_enqueued_of_mem {r : RunRow} (hr : r ∈ s.runs.rows) :
    s'.runs.find r.id = some (if d.candidate then r.makeRoom job now else r) := by
  refine Table.find_eq_some.mpr ⟨?_, ?_⟩
  · rw [hrows]
    exact List.mem_append_left _ (mem_roomRows hr job now d.candidate)
  · split
    · exact (r.sameRun_makeRoom job now).id
    · rfl

include hrows in
theorem joins_enqueued_iff : s.Joins s' run ↔ d.state = .queued ∧ d.candidate = false := by
  constructor
  · rintro ⟨r, hfind, hstate, hcandidate, -⟩
    obtain rfl := Option.some.inj ((find_enqueued hrows).symm.trans hfind)
    exact ⟨hstate, hcandidate⟩
  · rintro ⟨hstate, hcandidate⟩
    refine ⟨_, find_enqueued hrows, hstate, hcandidate, ?_⟩
    intro id hne
    cases hold : s.runs.find id with
    | some r =>
      obtain ⟨hr, rfl⟩ := Table.find_eq_some.mp hold
      rw [find_enqueued_of_mem hrows hr, hcandidate]
      rfl
    | none =>
      rw [Table.find_eq_none]
      intro r hr hid
      rw [hrows, hcandidate] at hr
      rcases List.mem_append.mp hr with hr | hr
      · exact Table.find_eq_none.mp hold r hr hid
      · rw [List.mem_singleton.mp hr] at hid
        exact hne hid.symm

include hrows in
theorem recordsSkip_enqueued_iff :
    s'.RecordsSkip run ↔ d.state = .skippedOverlap ∨ d.state = .skippedConcurrency := by
  constructor
  · rintro ⟨r, hfind, hstate⟩
    obtain rfl := Option.some.inj ((find_enqueued hrows).symm.trans hfind)
    exact hstate
  · intro hstate
    exact ⟨_, find_enqueued hrows, hstate⟩

include hrows in
theorem recordsFailure_enqueued_iff : s'.RecordsFailure run ↔ d.state = .failed := by
  constructor
  · rintro ⟨r, hfind, hstate⟩
    obtain rfl := Option.some.inj ((find_enqueued hrows).symm.trans hfind)
    exact hstate
  · intro hstate
    exact ⟨_, find_enqueued hrows, hstate⟩

include hrows in
theorem takesPlace_enqueued_iff : s.TakesPlace s' job run ↔
    d.state = .queued ∧ d.candidate = true ∧ s.SomeGivesWay job := by
  constructor
  · rintro ⟨r, hfind, hstate, hcandidate, old, hold, hjob, hactive, new, hnew, hgives⟩
    obtain rfl := Option.some.inj ((find_enqueued hrows).symm.trans hfind)
    refine ⟨hstate, hcandidate, old, hold, hjob, ?_⟩
    have hfound := (find_enqueued_of_mem hrows hold).symm.trans hnew
    rw [if_pos (show d.candidate = true from hcandidate), Option.some.injEq] at hfound
    -- a run that did not give way is neither skipped nor live
    by_contra hstays
    rw [not_or] at hstays
    have hsame : old.makeRoom job now = old := by
      unfold RunRow.makeRoom
      rw [if_neg (by simp [hstays.1]), if_neg (by simp [hstays.2])]
    rw [hsame] at hfound
    subst hfound
    rcases hgives with hskipped | ⟨hlive, -⟩
    · rcases hactive with hpending | hlive
      · rw [hskipped] at hpending
        cases hpending
      · exact hstays.2 hlive
    · exact hstays.2 hlive
  · rintro ⟨hstate, hcandidate, old, hold, hjob, hgives⟩
    refine ⟨_, find_enqueued hrows, hstate, hcandidate, old, hold, hjob, ?_, _,
      find_enqueued_of_mem hrows hold, ?_⟩
    · rcases hgives with hsuperseded | hlive
      · exact Or.inl (RunRow.pending_of_superseded hsuperseded)
      · exact Or.inr hlive
    · rw [if_pos hcandidate]
      unfold RunRow.makeRoom
      by_cases hsuperseded : old.superseded = true
      · rw [if_pos (by simp [hjob, hsuperseded])]
        exact Or.inl rfl
      have hlive := hgives.resolve_left hsuperseded
      rw [if_neg (by simp [hsuperseded]), if_pos (by simp [hjob, hlive])]
      refine Or.inr ⟨hlive, ?_⟩
      cases hasked : old.cancellationRequestedAt with
      | none | some => simp [RunRow.requestReplacement, hasked]

include hrows in
theorem predicts_enqueued_iff {decision : RunDecision} : s.Predicts s' job run decision ↔
    (decision = .eligible ∨ decision = .eligibleSubjectToCapacity ↔
      d.state = .queued ∧ d.candidate = false) ∧
    (decision = .wouldSkipOverlap ↔ d.state = .skippedOverlap ∨ d.state = .skippedConcurrency) ∧
    (decision = .wouldReplace ↔ d.state = .queued ∧ d.candidate = true ∧ s.SomeGivesWay job) ∧
    d.state ≠ .failed := by
  rw [← joins_enqueued_iff hrows, ← recordsSkip_enqueued_iff hrows,
    ← takesPlace_enqueued_iff hrows, ne_eq, ← recordsFailure_enqueued_iff hrows]
  constructor
  · rintro ⟨heligible, hskips, hreplaces, hsucceeds⟩
    exact ⟨heligible, hskips, hreplaces, hsucceeds⟩
  · rintro ⟨heligible, hskips, hreplaces, hsucceeds⟩
    exact ⟨heligible, hskips, hreplaces, hsucceeds⟩

end Enqueued

/-! ## The answers -/

/-- The decision fits what the overlap policy makes of the request exactly in the foreseen states,
if the candidate index is free whenever it is needed. -/
theorem foreseen_iff {s : Store} {job : Uuid} {policy : ExecutionPolicy} {d : OverlapDecision}
    (hd : d = s.decision job true ⟨.ofPolicy policy.overlap, policy.perJobConcurrency⟩) :
    s.Foreseen job policy ↔ (d.candidate = true → s.spentCandidate job = false) ∧
      let decision := runDecision (s.activeCount job) policy.overlap
      (decision = .eligible ∨ decision = .eligibleSubjectToCapacity ↔
        d.state = .queued ∧ d.candidate = false) ∧
      (decision = .wouldSkipOverlap ↔ d.state = .skippedOverlap ∨ d.state = .skippedConcurrency) ∧
      (decision = .wouldReplace ↔ d.state = .queued ∧ d.candidate = true ∧ s.SomeGivesWay job) ∧
      d.state ≠ .failed := by
  unfold Foreseen runDecision
  unfold decision overlapDecision at hd
  by_cases hzero : s.activeCount job = 0
  · rw [jobQuarantined_of_activeCount hzero, hzero] at hd
    subst hd
    simp [hzero, OverlapDecision.queue]
  have hpositive : 0 < s.activeCount job := by omega
  cases hquarantined : s.jobQuarantined job with
  | true =>
    rw [hquarantined] at hd
    cases hoverlap : policy.overlap <;> rw [hoverlap] at hd <;> subst hd <;>
      simp [hzero, SnapshotOverlap.ofPolicy]
  | false =>
    rw [hquarantined] at hd
    cases hoverlap : policy.overlap with
    | skip | replace =>
      rw [hoverlap] at hd
      subst hd
      simp [hzero, hpositive, SnapshotOverlap.ofPolicy]
    | allow =>
      rw [hoverlap] at hd
      by_cases hroom : s.activeCount job < policy.perJobConcurrency
      · have hnot : ¬ (policy.perJobConcurrency : Int) ≤ (s.activeCount job : Int) := by omega
        simp only [SnapshotOverlap.ofPolicy, hpositive, if_neg hnot] at hd
        subst hd
        simp [hzero, hroom, OverlapDecision.queue]
      · have hfull : (policy.perJobConcurrency : Int) ≤ (s.activeCount job : Int) := by omega
        simp only [SnapshotOverlap.ofPolicy, hpositive, if_pos hfull] at hd
        subst hd
        simp [hzero, hroom]

/-- The answers of the three surfaces carry one decision. -/
theorem dryRun_answers {s : Store} {job : Uuid} {record : JobRecord} {definition : JobDefinition}
    (hread : s.readJob job = some record) (hdefinition : record.definition = .job definition)
    (decision : RunDecision) :
    (Cli.runJob s job = .ok ⟨true, false, decision, false⟩ ∧
      Dashboard.jobsRun (some s) job = .ok ⟨true, false, decision, false⟩ ∧
      Mcp.toolRunJob s job = .ok ⟨true, decide (decision ≠ .wouldSkipOverlap), decision⟩) ↔
    decision = runDecision (s.activeCount job) definition.policy.overlap := by
  unfold Cli.runJob Dashboard.jobsRun Mcp.toolRunJob
  simp only [hread, hdefinition, Snapshot.definition]
  constructor
  · rintro ⟨hcli, -, -⟩
    cases hcli
    rfl
  · rintro rfl
    refine ⟨rfl, rfl, ?_⟩
    unfold runDecision
    by_cases hzero : s.activeCount job = 0
    · simp [hzero]
    · cases hoverlap : definition.policy.overlap <;> simp [hzero]

/-- **A dry run tells what a manual request would do exactly in the foreseen states**: there is no
unfinished run, or the policy skips, or it allows a further run below the limit of the job, or there
is a run to replace and no candidate in the way; and no predecessor is quarantined, unless the
policy skips. -/
theorem dryRun_predicts_iff {s : Store} (h : Reachable anyOp s) {job run : Uuid}
    {record : JobRecord}
    {definition : JobDefinition} {now : Int} (hread : s.readJob job = some record)
    (hdefinition : record.definition = .job definition) (hfresh : s.runs.find run = none) :
    (∃ s' decision,
      s.enqueueManual job record.currentRevision record.definition run now = .ok s' ∧
      (Cli.runJob s job = .ok ⟨true, false, decision, false⟩ ∧
        Dashboard.jobsRun (some s) job = .ok ⟨true, false, decision, false⟩ ∧
        Mcp.toolRunJob s job = .ok ⟨true, decide (decision ≠ .wouldSkipOverlap), decision⟩) ∧
      s.Predicts s' job run decision) ↔
    s.Foreseen job definition.policy := by
  have hpolicy : snapshotAdmissionPolicy record.definition =
      .ok ⟨.ofPolicy definition.policy.overlap, definition.policy.perJobConcurrency⟩ := by
    rw [hdefinition]
    rfl
  have hinserts := @enqueueManual_inserts_iff s job now _ run record h.linked hread hpolicy hfresh
  rw [foreseen_iff rfl]
  constructor
  · rintro ⟨s', decision, henqueued, hanswers, hpredicts⟩
    obtain rfl := (dryRun_answers hread hdefinition decision).mp hanswers
    obtain ⟨policy, hpolicy', -, -, -, -, hrows⟩ := enqueueManual_ok henqueued
    obtain rfl := Except.ok.inj (hpolicy.symm.trans hpolicy')
    have hrow := Table.find_eq_some.mp (find_enqueued hrows)
    exact ⟨hinserts.mp ⟨s', henqueued, _, hrow.1, hrow.2⟩,
      (predicts_enqueued_iff hrows).mp hpredicts⟩
  · rintro ⟨hfree, hfits⟩
    obtain ⟨s', henqueued, -⟩ := hinserts.mpr hfree
    obtain ⟨policy, hpolicy', -, -, -, -, hrows⟩ := enqueueManual_ok henqueued
    obtain rfl := Except.ok.inj (hpolicy.symm.trans hpolicy')
    exact ⟨s', _, henqueued, (dryRun_answers hread hdefinition _).mpr rfl,
      (predicts_enqueued_iff hrows).mpr hfits⟩

/-- A queued run gives way to the next request. -/
theorem dryRun_predicts_iff_replaced :
    ∃ s, Reachable anyOp s ∧ ∃ s', s.enqueueManual 1 1 replacedJob 4 1 = .ok s' ∧
      Cli.runJob s 1 = .ok ⟨true, false, .wouldReplace, false⟩ ∧ s.TakesPlace s' 1 4 := by
  obtain ⟨s, hs, ⟨record, hrecord, hrevision, hdefinition⟩, hfresh, hquarantined, hspent,
      ⟨r, hr, hjob, hgives⟩, hanswer⟩ := exists_reachable anyOp
    [.createJob ⟨1, "job", none, "[]", true, replacedJob, 0, 0⟩, .enqueueManual 1 1 replacedJob 3 0]
    (fun s => (∃ record, s.readJob 1 = some record ∧ record.currentRevision = 1 ∧
        record.definition = replacedJob) ∧
      s.runs.find 4 = none ∧ s.jobQuarantined 1 = false ∧ s.spentCandidate 1 = false ∧
      (∃ r ∈ s.runs.rows, r.jobId = 1 ∧ r.superseded = true) ∧
      Cli.runJob s 1 = .ok ⟨true, false, .wouldReplace, false⟩)
    (fun _ _ _ => trivial) (by decide +kernel)
  obtain ⟨s', decision, henqueued, ⟨hcli, -, -⟩, hpredicts⟩ :=
    (@dryRun_predicts_iff s hs 1 4 record _ 1 hrecord hdefinition hfresh).mpr
      (Or.inr ⟨hquarantined, hspent, r, hr, hjob, Or.inl hgives⟩)
  rw [hrevision, hdefinition] at henqueued
  rw [hanswer] at hcli
  cases hcli
  exact ⟨s, hs, s', henqueued, hanswer, hpredicts.replaces.mp rfl⟩

/-- **A replacement is announced and the run fails**: the predecessor is quarantined. -/
theorem dryRun_announces_failed_run :
    ∃ s, Reachable anyOp s ∧ Cli.runJob s 1 = .ok ⟨true, false, .wouldReplace, false⟩ ∧
      Dashboard.jobsRun (some s) 1 = .ok ⟨true, false, .wouldReplace, false⟩ ∧
      Mcp.toolRunJob s 1 = .ok ⟨true, true, .wouldReplace⟩ ∧
      ∃ s', s.enqueueManual 1 1 replacedJob 5 4 = .ok s' ∧ s'.RecordsFailure 5 ∧
        ∀ decision, ¬ s.Predicts s' 1 5 decision := by
  obtain ⟨s, hs, hcli, hdashboard, htool, s', hs', hfailure⟩ := exists_reachable anyOp
    (unconfirmedPredecessor false ++ [.completeAttempt unconfirmedCompletion])
    (fun s => Cli.runJob s 1 = .ok ⟨true, false, .wouldReplace, false⟩ ∧
      Dashboard.jobsRun (some s) 1 = .ok ⟨true, false, .wouldReplace, false⟩ ∧
      Mcp.toolRunJob s 1 = .ok ⟨true, true, .wouldReplace⟩ ∧
      ∃ s', s.enqueueManual 1 1 replacedJob 5 4 = .ok s' ∧
        ∃ r, s'.runs.find 5 = some r ∧ r.state = .failed)
    (fun _ _ _ => trivial) (by decide +kernel)
  exact ⟨s, hs, hcli, hdashboard, htool, s', hs', hfailure,
    fun decision hpredicts => hpredicts.succeeds hfailure⟩

end Store

end Locron
