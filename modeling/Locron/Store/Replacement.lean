import Locron.Store.Quarantine
import Locron.Store.References

set_option autoImplicit false

/-! # Replacement and the candidate index

A new run of a replacing job that meets unfinished work becomes the job's candidate, and a unique
index allows one candidate per job. Room is made by withdrawing the candidacy of all unfinished
runs. A candidate that was admitted and has ended by completion, by a failure before execution or by
the end of its daemon is still flagged: from then on the job's index is taken, a manual request that
would become a candidate fails, and a scheduled occurrence is dropped.
-/

namespace Locron

namespace Store

/-- A terminal run of the job still occupies the candidate index. -/
def spentCandidate (s : Store) (job : Uuid) : Bool :=
  s.runs.exist (fun r => r.jobId = job && r.replacementCandidate && r.state.isTerminal)

variable {s : Store} {job : Uuid}

theorem spentCandidate_iff : s.spentCandidate job = true ↔
    ∃ r ∈ s.runs.rows, r.jobId = job ∧ r.replacementCandidate = true ∧
      r.state.isTerminal = true := by
  simp only [spentCandidate, Table.exist_iff, Bool.and_eq_true, decide_eq_true_eq, and_assoc]

variable {now : Int}

/-- Making room withdraws every candidacy of the job but those of terminal runs. -/
theorem candidate_makeRoom {r : RunRow} (hjob : r.jobId = job)
    (htrigger : r.replacementCandidate = true → r.trigger ≠ .catchUp) :
    (r.makeRoom job now).replacementCandidate = true ↔
      r.replacementCandidate = true ∧ r.state.isTerminal = true := by
  unfold RunRow.makeRoom
  simp only [hjob, decide_true, Bool.true_and]
  by_cases hgives : r.superseded = true
  · have hlasting : r.state.isTerminal = false :=
      RunRow.not_terminal_of_pending (RunRow.pending_of_superseded hgives)
    simp [hgives, hlasting, RunRow.supersede]
  by_cases hlive : r.state.isLive = true
  · have hlasting := RunRow.not_terminal_of_live hlive
    simp [hgives, hlive, hlasting, RunRow.requestReplacement]
  simp only [hgives, hlive, Bool.false_eq_true, if_false]
  refine ⟨fun hc => ⟨hc, ?_⟩, fun h => h.1⟩
  -- neither superseded nor live: terminal, or a queued catch-up member
  have htrigger := htrigger hc
  simp only [RunRow.superseded, Bool.or_eq_true, Bool.and_eq_true, decide_eq_true_eq,
    bne_iff_ne, not_or, not_and, not_not] at hgives
  cases hstate : r.state with
  | queued => exact absurd (hgives.2 hstate) htrigger
  | retryWait => exact absurd hstate hgives.1
  | starting | running => simp [hstate, RunState.isLive] at hlive
  | _ => rfl

section Room

variable {t : Store} {row : RunRow} {now : Int}

theorem exist_room_of_same {p : RunRow → Bool}
    (hp : ∀ r r' : RunRow, r.SameRun r' → p r' = p r) {run : Uuid} {candidate : Bool} :
    (t.room job now run candidate).runs.exist p = t.runs.exist p := by
  rw [Bool.eq_iff_iff, Table.exist_iff, Table.exist_iff, rows_room]
  constructor
  · rintro ⟨r', hr', hpr⟩
    obtain ⟨r, hr, rfl⟩ := of_mem_roomRows hr'
    refine ⟨r, hr, ?_⟩
    split at hpr
    · rwa [hp r _ (r.sameRun_makeRoom job now)] at hpr
    · exact hpr
  · rintro ⟨r, hr, hpr⟩
    refine ⟨_, mem_roomRows hr job now candidate, ?_⟩
    split
    · rwa [hp r _ (r.sameRun_makeRoom job now)]
    · exact hpr

/-- No run has the next place in the queue. -/
theorem exist_room_nextQueueSequence (hlinked : t.Linked) {run : Uuid} {candidate : Bool} :
    (t.room job now run candidate).runs.exist (fun r => r.queueSequence = t.nextQueueSequence)
      = false := by
  rw [exist_room_of_same (fun r r' h => by rw [h.queueSequence]), ← Bool.not_eq_true,
    Table.exist_iff]
  rintro ⟨r, hr, heq⟩
  have hlt := hlinked.sequence r hr
  simp only [decide_eq_true_eq] at heq
  omega

theorem exist_room_candidate (hlinked : t.Linked) {run : Uuid} :
    (t.room job now run true).runs.exist (fun r => r.replacementCandidate && r.jobId = job)
      = t.spentCandidate job := by
  rw [Bool.eq_iff_iff, spentCandidate_iff, Table.exist_iff, rows_room]
  simp only [roomRows, if_true, List.mem_map, Bool.and_eq_true, decide_eq_true_eq]
  constructor
  · rintro ⟨r', ⟨r, hr, rfl⟩, hc, hjob⟩
    rw [(r.sameRun_makeRoom job now).jobId] at hjob
    have hflag := (candidate_makeRoom hjob (hlinked.candidate r hr)).mp hc
    exact ⟨r, hr, hjob, hflag.1, hflag.2⟩
  · rintro ⟨r, hr, hjob, hflag, hterminal⟩
    refine ⟨_, ⟨r, hr, rfl⟩, ?_, (r.sameRun_makeRoom job now).jobId.trans hjob⟩
    exact (candidate_makeRoom hjob (hlinked.candidate r hr)).mpr ⟨hflag, hterminal⟩

variable (now) in
/-- **The only constraint a new run can break is the candidate index**, and only a terminal run can
be in its way. -/
theorem runConflict_room (hlinked : t.Linked) (hfresh : t.runs.find row.id = none)
    (hsequence : row.queueSequence = t.nextQueueSequence)
    (hoccurrence : row.trigger ≠ .manual → ∀ r ∈ t.runs.rows, r.trigger ≠ .manual →
      ¬ (r.jobId = row.jobId ∧ r.revision = row.revision ∧ r.nominal = row.nominal))
    (hnominal : decide (row.trigger = .manual) = row.nominal.isNone) :
    (t.room row.jobId now row.id row.replacementCandidate).runConflict row
      = (row.replacementCandidate && t.spentCandidate row.jobId) := by
  have hid : (t.room row.jobId now row.id row.replacementCandidate).runs.exist
      (fun r => r.id = row.id) = false := by
    rw [exist_room_of_same (fun r r' h => by rw [h.id]), ← Bool.not_eq_true, Table.exist_iff]
    rintro ⟨r, hr, heq⟩
    exact Table.find_eq_none.mp hfresh r hr (by simpa using heq)
  have hqueue : (t.room row.jobId now row.id row.replacementCandidate).runs.exist
      (fun r => r.queueSequence = row.queueSequence) = false := by
    rw [hsequence]
    exact exist_room_nextQueueSequence hlinked
  have hkey : (row.trigger != .manual && (t.room row.jobId now row.id
      row.replacementCandidate).runs.exist (fun r => r.trigger != .manual && r.jobId = row.jobId
        && r.revision = row.revision && r.nominal = row.nominal)) = false := by
    rw [exist_room_of_same
      (fun r r' h => by rw [h.trigger, h.jobId, h.revision, h.nominal]), ← Bool.not_eq_true]
    simp only [Bool.and_eq_true, bne_iff_ne, Table.exist_iff, decide_eq_true_eq]
    rintro ⟨hscheduled, r, hr, ⟨⟨hr₁, hr₂⟩, hr₃⟩, hr₄⟩
    exact hoccurrence hscheduled r hr hr₁ ⟨hr₂, hr₃, hr₄⟩
  simp only [runConflict, hid, hqueue, hkey, Bool.false_or, hnominal, bne_self_eq_false,
    Bool.or_false]
  cases hc : row.replacementCandidate with
  | false => rfl
  | true => rw [exist_room_candidate hlinked]

variable (row now) in
/-- **A new run is inserted unless it is a candidate and a terminal run is in its way.** -/
theorem insertRun_room_iff (hlinked : t.Linked) (hfresh : t.runs.find row.id = none)
    (hsequence : row.queueSequence = t.nextQueueSequence)
    (hoccurrence : row.trigger ≠ .manual → ∀ r ∈ t.runs.rows, r.trigger ≠ .manual →
      ¬ (r.jobId = row.jobId ∧ r.revision = row.revision ∧ r.nominal = row.nominal))
    (hnominal : decide (row.trigger = .manual) = row.nominal.isNone)
    (hreferences : t.runReferences row = true) :
    (∃ t', (t.room row.jobId now row.id row.replacementCandidate).insertRun row = .ok t') ↔
      (row.replacementCandidate = true → t.spentCandidate row.jobId = false) := by
  have hconflict := runConflict_room now hlinked hfresh hsequence hoccurrence hnominal
  constructor
  · rintro ⟨t', ht'⟩ hcandidate
    have hnone := (insertRun_ok ht').1
    rwa [hconflict, hcandidate, Bool.true_and] at hnone
  · intro hfree
    refine exists_insertRun ?_ ?_
    · rw [hconflict, Bool.and_eq_false_iff]
      cases hc : row.replacementCandidate with
      | false => exact Or.inl rfl
      | true => exact Or.inr (hfree hc)
    · have hkeeps := (keepsDefinitions_room t row.jobId now row.id row.replacementCandidate).1
      rwa [runReferences, hkeeps.jobs, hkeeps.revisions]

end Room

/-! ## Materializing -/

/-- A state in the middle of a materialization: the cursor is advanced, and some occurrences of the
batch are done. -/
def Midway (s : Store) (job : Uuid) (cursor : CursorUpdate) (now : Int) (t : Store) : Prop :=
  ∃ s₁ runs prepared result, s.advanceCursor job cursor now = .ok s₁ ∧
    preparePolicies job cursor.expectedRevision runs = .ok prepared ∧
    s₁.materializeRuns now prepared ⟨0, 0⟩ = .ok (result, t)

variable {t : Store}

/-- Midway, all references hold, and the reconciled revision exists. -/
theorem Midway.linked {cursor : CursorUpdate} (h : Midway s job cursor now t) (hlinked : s.Linked) :
    t.Linked ∧ t.knows job = true ∧
      (t.revisions.find (job, cursor.expectedRevision)).isSome = true := by
  obtain ⟨s₁, runs, prepared, result, hcursor, -, hruns⟩ := h
  obtain ⟨⟨j, c, -, -, hc, -⟩, hsame, hsequence, hrevisions, hjobs, hcursors⟩ :=
    advanceCursor_ok hcursor
  have hlinked₁ : s₁.Linked := hlinked.of_columns hsame hsequence hrevisions hjobs hcursors
  have hkeeps : KeepsDefinitions s₁ t :=
    materializeRuns_induction (motive := fun x => KeepsDefinitions s₁ x)
      (fun _ hx hrun => hx.trans (materializeRun_ok hrun).1) (.refl s₁) hruns
  have hlinkedt : t.Linked :=
    materializeRuns_induction (fun _ hs hrun => hs.materializeRun hrun) hlinked₁ hruns
  obtain ⟨hknown, hsome⟩ := hlinked.cursor _ c hc
  refine ⟨hlinkedt, ?_, ?_⟩
  · simp only [knows, hkeeps.jobs, hjobs, Option.isSome_map]
    exact hknown
  · rw [hkeeps.revisions, hrevisions]
    exact hsome

theorem insertRunOrIgnore_true_iff {s' : Store} {row : RunRow} :
    s.insertRunOrIgnore row = .ok (true, s') ↔ s.insertRun row = .ok s' := by
  unfold insertRunOrIgnore
  constructor
  · intro h
    obtain ⟨-, h⟩ | ⟨-, h⟩ := ite_eq_iff.mp h
    · cases h
    obtain ⟨s₁, hs₁, heq⟩ := Except.map_eq_ok.mp h
    cases heq
    exact hs₁
  · intro h
    rw [if_neg (by simp [(insertRun_ok h).1]), h]
    rfl

variable {policy : SnapshotAdmissionPolicy}

theorem materializeRun_true_iff {t' : Store} {run : NewScheduledRun} :
    t.materializeRun now run policy = .ok (true, t') ↔
      let d := t.decision run.jobId (run.trigger != .catchUp) policy
      (t.room run.jobId now run.id d.candidate).insertRun (newRunRow run t.nextQueueSequence d now)
        = .ok t' :=
  insertRunOrIgnore_true_iff

theorem materializeRun_inserts_iff {cursor : CursorUpdate}
    (hlinked : s.Linked) (hmidway : Midway s job cursor now t) {run : NewScheduledRun}
    (hjob : run.jobId = job)
    (hrevision : run.revision = cursor.expectedRevision) (htrigger : run.trigger ≠ .manual)
    (hfresh : t.runs.find run.id = none) (hoccurrence : ∀ r ∈ t.runs.rows, r.trigger ≠ .manual →
      ¬ (r.jobId = job ∧ r.revision = run.revision ∧ r.nominal = some run.nominal)) :
    (∃ t', t.materializeRun now run policy = .ok (true, t') ∧
      ∃ r ∈ t'.runs.rows, r.id = run.id ∧ r.nominal = some run.nominal) ↔
    ((t.decision job (run.trigger != .catchUp) policy).candidate = true →
      t.spentCandidate job = false) := by
  obtain ⟨hlinkedt, hknown, hsome⟩ := hmidway.linked hlinked
  subst hjob
  have hreferences : t.runReferences (newRunRow run t.nextQueueSequence
      (t.decision run.jobId (run.trigger != .catchUp) policy) now) = true := by
    simp only [runReferences, newRunRow, hrevision, hsome, Bool.and_true]
    exact hknown
  have hiff := insertRun_room_iff _ now hlinkedt hfresh rfl
    (fun _ r hr hscheduled => hoccurrence r hr hscheduled)
    (by simp [newRunRow, htrigger]) hreferences
  refine Iff.trans ⟨?_, ?_⟩ hiff
  · rintro ⟨t', ht', -⟩
    exact ⟨t', materializeRun_true_iff.mp ht'⟩
  · rintro ⟨t', ht'⟩
    refine ⟨t', materializeRun_true_iff.mpr ht',
      newRunRow run t.nextQueueSequence (t.decision run.jobId (run.trigger != .catchUp) policy) now,
      ?_, rfl, rfl⟩
    rw [(insertRun_ok ht').2.2.1]
    exact List.mem_append_right _ (List.mem_singleton_self _)

/-! ## Manual requests -/

/-- For what was read of the job, a manual request is the insertion of its row, where room was
made. -/
theorem enqueueManual_eq {run : Uuid} {record : JobRecord} (hread : s.readJob job = some record)
    (hpolicy : snapshotAdmissionPolicy record.definition = .ok policy) :
    s.enqueueManual job record.currentRevision record.definition run now =
      ((s.room job now run (s.decision job true policy).candidate).insertRun
        (manualRunRow run job record.currentRevision record.definition s.nextQueueSequence
          (s.decision job true policy) now)).map
        (fun s => s.event now "manual_enqueued" (some job) (some run) "\x7b\x7d") := by
  obtain ⟨j, r, c, hj, hr, -, rfl⟩ := of_readJob hread
  unfold enqueueManual
  simp only [hpolicy, hj, hr, ne_eq, not_true_eq_false, or_self, if_false]
  rfl

theorem enqueueManual_inserts_iff {run : Uuid} {record : JobRecord} (hlinked : s.Linked)
    (hread : s.readJob job = some record)
    (hpolicy : snapshotAdmissionPolicy record.definition = .ok policy)
    (hfresh : s.runs.find run = none) :
    (∃ s', s.enqueueManual job record.currentRevision record.definition run now = .ok s' ∧
      ∃ r ∈ s'.runs.rows, r.id = run) ↔
    ((s.decision job true policy).candidate = true → s.spentCandidate job = false) := by
  rw [enqueueManual_eq hread hpolicy]
  obtain ⟨j, r, c, hj, hr, -, rfl⟩ := of_readJob hread
  have hknown : (s.jobs.find job).isSome = true := by
    rw [(Option.filter_eq_some_iff.mp hj).1]
    rfl
  have hiff := insertRun_room_iff (manualRunRow run job j.currentRevision r.definition
      s.nextQueueSequence (s.decision job true policy) now) now hlinked hfresh rfl
        (fun h => absurd rfl h) rfl
    (by simp [runReferences, manualRunRow, hknown, hr])
  refine Iff.trans ⟨?_, ?_⟩ hiff
  · rintro ⟨s', hs', -⟩
    obtain ⟨s₁, hs₁, -⟩ := Except.map_eq_ok.mp hs'
    exact ⟨s₁, hs₁⟩
  · rintro ⟨s₁, hs₁⟩
    refine ⟨_, Except.map_eq_ok.mpr ⟨s₁, hs₁, rfl⟩, manualRunRow run job j.currentRevision
      r.definition s.nextQueueSequence (s.decision job true policy) now, ?_, rfl⟩
    show _ ∈ s₁.runs.rows
    rw [(insertRun_ok hs₁).2.2.1]
    exact List.mem_append_right _ (List.mem_singleton_self _)

/-! ## The whole store -/

/-- **When a replacing job takes a new run.** In every reachable state, a new occurrence of a job
that replaces its runs and a manual request for it are inserted exactly if the run does not become a
candidate or no terminal run of the job is still flagged as one. -/
theorem replacement_inserts_iff {s : Store} (h : Reachable anyOp s) :
    (∀ job cursor now t run policy, Midway s job cursor now t → run.jobId = job →
      run.revision = cursor.expectedRevision → run.trigger ≠ .manual →
      snapshotAdmissionPolicy run.snapshot = .ok policy → policy.overlap = .replace →
      t.runs.find run.id = none →
      (∀ r ∈ t.runs.rows, r.trigger ≠ .manual →
        ¬ (r.jobId = job ∧ r.revision = run.revision ∧ r.nominal = some run.nominal)) →
      ((∃ t', t.materializeRun now run policy = .ok (true, t') ∧
          ∃ r ∈ t'.runs.rows, r.id = run.id ∧ r.nominal = some run.nominal) ↔
        ((t.decision job (run.trigger != .catchUp) policy).candidate = true →
          t.spentCandidate job = false))) ∧
    (∀ job record run now policy, s.readJob job = some record →
      snapshotAdmissionPolicy record.definition = .ok policy → policy.overlap = .replace →
      s.runs.find run = none →
      ((∃ s', s.enqueueManual job record.currentRevision record.definition run now = .ok s' ∧
          ∃ r ∈ s'.runs.rows, r.id = run) ↔
        ((s.decision job true policy).candidate = true → s.spentCandidate job = false))) := by
  refine ⟨?_, ?_⟩
  · rintro job cursor now t run policy hmidway hjob hrevision htrigger - - hfresh hoccurrence
    exact materializeRun_inserts_iff h.linked hmidway hjob hrevision htrigger hfresh hoccurrence
  · rintro job record run now policy hread hpolicy - hfresh
    exact enqueueManual_inserts_iff h.linked hread hpolicy hfresh

/-- Without a spent candidate, a second manual request and the next occurrence are both taken. -/
theorem replacement_inserts_iff_queued :
    ∃ s, Reachable anyOp s ∧
      (∃ s', s.enqueueManual 1 1 replacedJob 4 1 = .ok s' ∧ ∃ r ∈ s'.runs.rows, r.id = 4) ∧
      (∃ t t', Midway s 1 ⟨1, 0, 3600000000, false⟩ 3600000000 t ∧
        t.materializeRun 3600000000 ⟨4, 1, 1, .scheduled, 3600000000, 3600000000, 3600000000,
            replacedJob⟩ ⟨.replace, 1⟩ = .ok (true, t') ∧
          ∃ r ∈ t'.runs.rows, r.id = 4 ∧ r.nominal = some 3600000000) := by
  obtain ⟨s, hs, ⟨record, hrecord, hrevision, hdefinition⟩, hfresh, hspent, t, ht, hfresh', hall,
      hspent'⟩ := exists_reachable anyOp
    [.createJob ⟨1, "job", none, "[]", true, replacedJob, 0, 0⟩, .enqueueManual 1 1 replacedJob 3 0]
    (fun s => (∃ record, s.readJob 1 = some record ∧ record.currentRevision = 1 ∧
        record.definition = replacedJob) ∧
      s.runs.find 4 = none ∧ s.spentCandidate 1 = false ∧
      ∃ t, s.advanceCursor 1 ⟨1, 0, 3600000000, false⟩ 3600000000 = .ok t ∧
        t.runs.find 4 = none ∧ (∀ r ∈ t.runs.rows, r.trigger = .manual) ∧
        t.spentCandidate 1 = false)
    (fun _ _ _ => trivial) (by decide +kernel)
  obtain ⟨hscheduled, hmanual⟩ := replacement_inserts_iff hs
  refine ⟨s, hs, ?_, ?_⟩
  · have htaken := (hmanual 1 record 4 1 ⟨.replace, 1⟩ hrecord (by rw [hdefinition]; rfl) rfl
      hfresh).mpr (fun _ => hspent)
    rwa [hrevision, hdefinition] at htaken
  · have hmidway : Midway s 1 ⟨1, 0, 3600000000, false⟩ 3600000000 t :=
      ⟨t, [], [], _, ht, rfl, rfl⟩
    obtain ⟨t', ht'⟩ := (hscheduled 1 _ 3600000000 t
      ⟨4, 1, 1, .scheduled, 3600000000, 3600000000, 3600000000, replacedJob⟩ ⟨.replace, 1⟩
      hmidway rfl rfl (by decide) rfl rfl hfresh'
      (fun r hr hne => absurd (hall r hr) hne)).mpr (fun _ => hspent')
    exact ⟨t, t', hmidway, ht'⟩

def replacedOnce : List Op :=
  [.createJob ⟨1, "job", none, "[]", true, replacedJob, 0, 0⟩,
   .beginLifetime 2 0,
   .enqueueManual 1 1 replacedJob 3 0,
   .admitRuns (fun _ => some replacedJob) 2 0 1,
   .markAttemptRunning 3 1 0 none,
   .enqueueManual 1 1 replacedJob 4 1,
   .completeAttempt ⟨3, 1, 2, 2, .cancelled, none, none, none, "", none⟩,
   .admitRuns (fun _ => some replacedJob) 2 3 1,
   .markAttemptRunning 4 1 3 none,
   .completeAttempt ⟨4, 1, 4, 4, .succeeded, some 0, none, none, "", none⟩]

/-- **The candidate that succeeded is in the way**: while another run is queued, the next manual
request fails and the next scheduled occurrence is dropped, though no candidate waits. -/
theorem spent_candidate_blocks :
    ∃ s, Reachable anyOp s ∧
      (s.readJob 1).isSome = true ∧ s.runs.find 6 = none ∧
      (∀ r ∈ s.runs.rows, r.replacementCandidate = true → r.state = .succeeded) ∧
      (∀ s', s.enqueueManual 1 1 replacedJob 6 6 ≠ .ok s') ∧
      (∃ s', s.materializeWithSummaries 1 ⟨1, 0, 3600000000, false⟩
          [⟨6, 1, 1, .scheduled, 3600000000, 3600000000, 3600000000, replacedJob⟩] [] 3600000000
            = .ok (⟨0, 1⟩, s') ∧
        ∀ r ∈ s'.runs.rows, r.trigger = .manual) := by
  obtain ⟨s, hs, hread, hfresh, hflags, hmanual, ⟨result, s'⟩, hs', hresult, hall⟩ :=
    exists_reachable anyOp (replacedOnce ++ [.enqueueManual 1 1 replacedJob 5 5])
      (fun s => (s.readJob 1).isSome = true ∧ s.runs.find 6 = none ∧
        (∀ r ∈ s.runs.rows, r.replacementCandidate = true → r.state = .succeeded) ∧
        (∀ s', s.enqueueManual 1 1 replacedJob 6 6 ≠ .ok s') ∧
        ∃ x, s.materializeWithSummaries 1 ⟨1, 0, 3600000000, false⟩
            [⟨6, 1, 1, .scheduled, 3600000000, 3600000000, 3600000000, replacedJob⟩] [] 3600000000
              = .ok x ∧
          x.1 = ⟨0, 1⟩ ∧ ∀ r ∈ x.2.runs.rows, r.trigger = .manual)
      (fun _ _ _ => trivial) (by decide +kernel)
  cases hresult
  exact ⟨s, hs, hread, hfresh, hflags, hmanual, s', hs', hall⟩

end Store

end Locron
