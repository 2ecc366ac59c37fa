import Locron.Store.Replacement

set_option autoImplicit false

/-! # Materializing an occurrence twice

The unique index on occurrences drops a duplicate, but only after the overlap policy has made room
for it. With `replace` that supersedes the waiting runs of the job, the first copy of the occurrence
among them, and asks the live ones to stop. A batch changes no run exactly if each of its
occurrences is dropped and finds nothing left to make room for (`materializeRuns_unchanged_iff`);
the changes of an earlier occurrence are never undone by a later one, because each change of a row
lowers its rank.
-/

namespace Locron

/-! ## Rows that give way -/

namespace RunRow

/-- A replacement would change the row: it supersedes it, or has something to ask of it. -/
def inTheWay (job : Uuid) (r : RunRow) : Bool :=
  r.jobId = job && (r.superseded || (r.state.isLive && (r.cancellationRequestedAt.isNone
    || r.cancellationReason.isNone || r.replacementCandidate)))

/-- What can still be taken from a row by replacements. -/
def rank (r : RunRow) : Nat :=
  r.state.isPending.toNat + r.cancellationRequestedAt.isNone.toNat
    + r.cancellationReason.isNone.toNat + r.replacementCandidate.toNat

variable {r : RunRow} {job : Uuid} {now : Int}

theorem makeRoom_eq_self (h : r.inTheWay job = false) : r.makeRoom job now = r := by
  unfold makeRoom
  by_cases hjob : r.jobId = job
  · simp only [inTheWay, hjob, decide_true, Bool.true_and, Bool.or_eq_false_iff] at h
    obtain ⟨hstays, hasked⟩ := h
    rw [if_neg (by simp [hstays])]
    split
    · next hlive =>
      simp only [Bool.and_eq_true] at hlive
      simp only [hlive.2, Bool.true_and, Bool.or_eq_false_iff, Option.isNone_eq_false_iff,
        Option.isSome_iff_exists] at hasked
      obtain ⟨⟨⟨at_, hat⟩, ⟨source, hsource⟩⟩, hflag⟩ := hasked
      cases r
      simp_all [requestReplacement]
    · rfl
  · simp [hjob]

/-- A row that gives way loses rank. -/
theorem rank_makeRoom_lt (h : r.inTheWay job = true) : (r.makeRoom job now).rank < r.rank := by
  unfold makeRoom
  simp only [inTheWay, Bool.and_eq_true, Bool.or_eq_true, decide_eq_true_eq] at h
  obtain ⟨hjob, hgives⟩ := h
  by_cases hsuperseded : r.superseded = true
  · have hpending := pending_of_superseded hsuperseded
    have hbefore : r.rank = 1 + r.cancellationRequestedAt.isNone.toNat
        + r.cancellationReason.isNone.toNat + r.replacementCandidate.toNat := by
      rw [rank, hpending]
      rfl
    have hafter : (r.supersede now).rank = r.cancellationRequestedAt.isNone.toNat
        + r.cancellationReason.isNone.toNat := by
      simp [rank, supersede, RunState.isPending]
    rw [if_pos (by simp [hjob, hsuperseded])]
    omega
  · obtain ⟨hlive, hasks⟩ := hgives.resolve_left hsuperseded
    rw [if_neg (by simp [hsuperseded]), if_pos (by simp [hjob, hlive])]
    cases hat : r.cancellationRequestedAt <;> cases hsource : r.cancellationReason <;>
      cases hflag : r.replacementCandidate <;>
      (simp_all [rank, requestReplacement]; try omega)

theorem quarantined_makeRoom_eq : (r.makeRoom job now).quarantined = r.quarantined := by
  cases hq : r.quarantined with
  | true => exact quarantined_makeRoom hq
  | false =>
    unfold makeRoom
    split
    · rfl
    split
    · exact hq
    · exact hq

theorem unfinished_of_inTheWay (h : r.inTheWay job = true) :
    r.jobId = job ∧ (r.state.isPending || r.state.isLive) = true := by
  simp only [inTheWay, Bool.and_eq_true, Bool.or_eq_true, decide_eq_true_eq] at h ⊢
  exact ⟨h.1, h.2.imp pending_of_superseded And.left⟩

theorem makeRoom_of_terminal (h : r.state.isTerminal = true) : r.makeRoom job now = r := by
  apply makeRoom_eq_self
  by_contra hway
  have hunfinished := (unfinished_of_inTheWay (by simpa using hway)).2
  revert h hunfinished
  cases r.state <;> simp [RunState.isTerminal, RunState.isPending, RunState.isLive]

end RunRow

/-! ## Tables that only move on -/

/-- The second table has more rows, or as many of lower rank in all, unless it is the first. -/
def MovesOn (rows rows' : List RunRow) : Prop :=
  rows' = rows ∨ rows.length < rows'.length ∨
    (rows'.length = rows.length ∧ (rows'.map RunRow.rank).sum < (rows.map RunRow.rank).sum)

namespace MovesOn

variable {rows rows' rows'' : List RunRow}

theorem trans (h : MovesOn rows rows') (h' : MovesOn rows' rows'') : MovesOn rows rows'' := by
  rcases h with rfl | hlength | ⟨hlength, hrank⟩
  · exact h'
  · rcases h' with rfl | hlength' | ⟨hlength', -⟩
    · exact Or.inr (Or.inl hlength)
    · exact Or.inr (Or.inl (hlength.trans hlength'))
    · exact Or.inr (Or.inl (by omega))
  · rcases h' with rfl | hlength' | ⟨hlength', hrank'⟩
    · exact Or.inr (Or.inr ⟨hlength, hrank⟩)
    · exact Or.inr (Or.inl (by omega))
    · exact Or.inr (Or.inr ⟨hlength'.trans hlength, hrank'.trans hrank⟩)

/-- There is no way back. -/
theorem antisymm (h : MovesOn rows rows') (h' : MovesOn rows' rows) : rows' = rows := by
  rcases h with heq | hlength | ⟨hlength, hrank⟩
  · exact heq
  · rcases h' with heq | hlength' | ⟨hlength', -⟩
    · exact heq.symm
    · omega
    · omega
  · rcases h' with heq | hlength' | ⟨-, hrank'⟩
    · exact heq.symm
    · omega
    · omega

end MovesOn

section MakeRoom

variable {rows : List RunRow} {job : Uuid} {now : Int}

theorem map_makeRoom_eq_self (h : ∀ r ∈ rows, r.inTheWay job = false) :
    rows.map (RunRow.makeRoom job now) = rows := by
  conv_rhs => rw [← List.map_id rows]
  apply List.map_congr_left
  exact fun r hr => RunRow.makeRoom_eq_self (h r hr)

/-- Making room lowers the rank of the table as soon as one row gives way. -/
theorem sum_rank_makeRoom_lt {r : RunRow} (hr : r ∈ rows) (hway : r.inTheWay job = true) :
    ((rows.map (RunRow.makeRoom job now)).map RunRow.rank).sum < (rows.map RunRow.rank).sum := by
  rw [List.map_map]
  apply List.sum_lt_sum
  · intro r _
    rw [Function.comp_apply]
    cases hway : r.inTheWay job with
    | true => exact (RunRow.rank_makeRoom_lt hway).le
    | false => rw [RunRow.makeRoom_eq_self hway]
  · exact ⟨r, hr, RunRow.rank_makeRoom_lt hway⟩

end MakeRoom

namespace Store

/-! ## One occurrence -/

/-- The row of the run would break a constraint whatever becomes of it: the identity or the
occurrence exists, or a manual run comes with a nominal time. -/
def taken (s : Store) (run : NewScheduledRun) : Bool :=
  s.runs.exist (fun r => r.id = run.id) || run.trigger = .manual
    || s.runs.exist (fun r => r.trigger != .manual && r.jobId = run.jobId
      && r.revision = run.revision && r.nominal = some run.nominal)

/-- Nothing of the job is in the way of a replacement. -/
def roomIsMade (s : Store) (job : Uuid) : Prop := ∀ r ∈ s.runs.rows, r.inTheWay job = false

def occurrenceDecision (s : Store) (x : NewScheduledRun × SnapshotAdmissionPolicy) :
    OverlapDecision :=
  s.decision x.1.jobId (x.1.trigger != .catchUp) x.2

/-- The occurrence changes no run: it is dropped, and there is nothing to make room for. -/
def Inert (s : Store) (x : NewScheduledRun × SnapshotAdmissionPolicy) : Prop :=
  ((s.occurrenceDecision x).candidate = true → s.roomIsMade x.1.jobId) ∧
    (s.taken x.1 = true ∨
      ((s.occurrenceDecision x).candidate = true ∧ s.spentCandidate x.1.jobId = true))

section Occurrence

variable {s s' : Store} {now : Int} {run : NewScheduledRun} {policy : SnapshotAdmissionPolicy}
  {inserted : Bool}

/-- What stands in the way of the row of an occurrence: a constraint that its decision has no part
in, or the flag of a terminal run. -/
theorem runConflict_newRunRow (hlinked : s.Linked) :
    (s.room run.jobId now run.id (s.occurrenceDecision (run, policy)).candidate).runConflict
        (newRunRow run s.nextQueueSequence (s.occurrenceDecision (run, policy)) now)
      = (s.taken run || ((s.occurrenceDecision (run, policy)).candidate
        && s.spentCandidate run.jobId)) := by
  generalize hd : s.occurrenceDecision (run, policy) = d
  have hqueue : (s.room run.jobId now run.id d.candidate).runs.exist
      (fun r => r.queueSequence = s.nextQueueSequence) = false :=
    exist_room_nextQueueSequence hlinked
  have hid : (s.room run.jobId now run.id d.candidate).runs.exist (fun r => r.id = run.id)
      = s.runs.exist (fun r => r.id = run.id) :=
    exist_room_of_same (fun r r' h => by rw [h.id])
  have hkey : (s.room run.jobId now run.id d.candidate).runs.exist (fun r => r.trigger != .manual
        && r.jobId = run.jobId && r.revision = run.revision && r.nominal = some run.nominal)
      = s.runs.exist (fun r => r.trigger != .manual && r.jobId = run.jobId
        && r.revision = run.revision && r.nominal = some run.nominal) :=
    exist_room_of_same (fun r r' h => by rw [h.trigger, h.jobId, h.revision, h.nominal])
  have hflag : (d.candidate && (s.room run.jobId now run.id d.candidate).runs.exist
      (fun r => r.replacementCandidate && r.jobId = run.jobId))
      = (d.candidate && s.spentCandidate run.jobId) := by
    cases d.candidate with
    | false => rfl
    | true => rw [exist_room_candidate hlinked]
  calc (s.room run.jobId now run.id d.candidate).runConflict
        (newRunRow run s.nextQueueSequence d now)
      = ((s.room run.jobId now run.id d.candidate).runs.exist (fun r => r.id = run.id)
        || (s.room run.jobId now run.id d.candidate).runs.exist
          (fun r => r.queueSequence = s.nextQueueSequence)
        || (run.trigger != .manual && (s.room run.jobId now run.id d.candidate).runs.exist
          (fun r => r.trigger != .manual && r.jobId = run.jobId && r.revision = run.revision
            && r.nominal = some run.nominal))
        || (d.candidate && (s.room run.jobId now run.id d.candidate).runs.exist
          (fun r => r.replacementCandidate && r.jobId = run.jobId))
        || (decide (run.trigger = .manual) != false)) := rfl
    _ = (s.taken run || (d.candidate && s.spentCandidate run.jobId)) := by
        rw [hid, hqueue, hkey, hflag, taken]
        by_cases hmanual : run.trigger = .manual
        · simp [hmanual]
        · have hscheduled : (run.trigger != .manual) = true := by simpa using hmanual
          simp [hmanual, hscheduled, Bool.or_assoc]

theorem rows_materializeRun (hlinked : s.Linked)
    (h : s.materializeRun now run policy = .ok (inserted, s')) :
    inserted = !(s.taken run || ((s.occurrenceDecision (run, policy)).candidate
        && s.spentCandidate run.jobId)) ∧
      s'.runs.rows = s.roomRows run.jobId now (s.occurrenceDecision (run, policy)).candidate
        ++ if inserted then
          [newRunRow run s.nextQueueSequence (s.occurrenceDecision (run, policy)) now]
          else [] := by
  obtain ⟨-, -, hinserted, -, hrows⟩ := materializeRun_ok h
  refine ⟨?_, hrows⟩
  rw [← runConflict_newRunRow hlinked]
  exact hinserted

theorem movesOn_materializeRun (hlinked : s.Linked)
    (h : s.materializeRun now run policy = .ok (inserted, s')) :
    MovesOn s.runs.rows s'.runs.rows := by
  obtain ⟨-, hrows⟩ := rows_materializeRun hlinked h
  have hlength : (s.roomRows run.jobId now
      (s.occurrenceDecision (run, policy)).candidate).length = s.runs.rows.length := by
    unfold roomRows
    split
    · exact List.length_map _
    · rfl
  rw [hrows]
  cases inserted with
  | true =>
    refine Or.inr (Or.inl ?_)
    rw [List.length_append, hlength]
    simp
  | false =>
    rw [if_neg (by simp), List.append_nil]
    cases hc : (s.occurrenceDecision (run, policy)).candidate with
    | false => exact Or.inl rfl
    | true =>
      simp only [roomRows, if_true]
      by_cases hroom : s.roomIsMade run.jobId
      · exact Or.inl (map_makeRoom_eq_self hroom)
      simp only [roomIsMade, not_forall, Bool.not_eq_false] at hroom
      obtain ⟨r, hr, hway⟩ := hroom
      exact Or.inr (Or.inr ⟨List.length_map _, sum_rank_makeRoom_lt hr hway⟩)

/-- **An occurrence changes no run exactly if it is inert.** -/
theorem materializeRun_unchanged_iff (hlinked : s.Linked)
    (h : s.materializeRun now run policy = .ok (inserted, s')) :
    s'.runs.rows = s.runs.rows ↔ s.Inert (run, policy) := by
  obtain ⟨hinserted, hrows⟩ := rows_materializeRun hlinked h
  have hlength : (s.roomRows run.jobId now
      (s.occurrenceDecision (run, policy)).candidate).length = s.runs.rows.length := by
    unfold roomRows
    split
    · exact List.length_map _
    · rfl
  have hdropped : inserted = false ↔ s.taken run = true ∨
      ((s.occurrenceDecision (run, policy)).candidate = true ∧
        s.spentCandidate run.jobId = true) := by
    rw [hinserted, Bool.not_eq_false', Bool.or_eq_true, Bool.and_eq_true]
  constructor
  · intro hsame
    have hnone : inserted = false := by
      by_contra hsome
      rw [hsame, if_pos (by simpa using hsome)] at hrows
      have := congrArg List.length hrows
      rw [List.length_append, hlength, List.length_singleton] at this
      omega
    refine ⟨?_, hdropped.mp hnone⟩
    intro hc r hr
    by_contra hway
    have hlower := @sum_rank_makeRoom_lt _ run.jobId now r hr (by simpa using hway)
    rw [hsame, hnone, if_neg (by simp), List.append_nil, roomRows, if_pos hc] at hrows
    rw [← hrows] at hlower
    omega
  · rintro ⟨hroom, htaken⟩
    rw [hrows, hdropped.mpr htaken, if_neg (by simp), List.append_nil]
    unfold roomRows
    split
    · next hc => exact map_makeRoom_eq_self (hroom hc)
    · rfl

/-- What is in the way of an occurrence, or was decided for the job, depends on the rows alone. -/
theorem inert_congr (h : s'.runs.rows = s.runs.rows)
    (x : NewScheduledRun × SnapshotAdmissionPolicy) : s'.Inert x ↔ s.Inert x := by
  have hruns : s'.runs = s.runs := Table.ext_rows h
  unfold Inert occurrenceDecision roomIsMade taken spentCandidate decision jobQuarantined
    activeCount
  rw [hruns]

end Occurrence

/-! ## A batch -/

section Batch

variable {s s' : Store} {now : Int} {result result' : MaterializedRun}
  {batch : List (NewScheduledRun × SnapshotAdmissionPolicy)}

/-- The first occurrence of a batch, and the rest. -/
theorem materializeRuns_cons {run : NewScheduledRun} {policy : SnapshotAdmissionPolicy}
    (h : s.materializeRuns now ((run, policy) :: batch) result = .ok (result', s')) :
    ∃ inserted s₁ result₁, s.materializeRun now run policy = .ok (inserted, s₁) ∧
      s₁.materializeRuns now batch result₁ = .ok (result', s') := by
  unfold materializeRuns at h
  split at h
  · cases h
  · next s₁ hs₁ => exact ⟨true, s₁, _, hs₁, h⟩
  · next s₁ hs₁ => exact ⟨false, s₁, _, hs₁, h⟩

theorem movesOn_materializeRuns (hlinked : s.Linked)
    (h : s.materializeRuns now batch result = .ok (result', s')) :
    MovesOn s.runs.rows s'.runs.rows := by
  induction batch generalizing s result with
  | nil =>
    cases h
    exact Or.inl rfl
  | cons x batch ih =>
    obtain ⟨inserted, s₁, result₁, hs₁, hrest⟩ := materializeRuns_cons h
    exact (movesOn_materializeRun hlinked hs₁).trans (ih (hlinked.materializeRun hs₁) hrest)

/-- **A batch changes no run exactly if each of its occurrences is inert.** -/
theorem materializeRuns_unchanged_iff (hlinked : s.Linked)
    (h : s.materializeRuns now batch result = .ok (result', s')) :
    s'.runs.rows = s.runs.rows ↔ ∀ x ∈ batch, s.Inert x := by
  induction batch generalizing s result with
  | nil =>
    cases h
    simp
  | cons x batch ih =>
    obtain ⟨inserted, s₁, result₁, hs₁, hrest⟩ := materializeRuns_cons h
    have hlinked₁ := hlinked.materializeRun hs₁
    have hfirst := materializeRun_unchanged_iff hlinked hs₁
    rw [List.forall_mem_cons]
    constructor
    · intro hsame
      -- whatever the first occurrence changed would still be changed at the end
      have hback : MovesOn s₁.runs.rows s.runs.rows := by
        rw [← hsame]
        exact movesOn_materializeRuns hlinked₁ hrest
      have hrows := (movesOn_materializeRun hlinked hs₁).antisymm hback
      refine ⟨hfirst.mp hrows, fun y hy => ?_⟩
      exact (inert_congr hrows y).mp ((ih hlinked₁ hrest).mp (hsame.trans hrows.symm) y hy)
    · rintro ⟨hinert, hothers⟩
      have hrows := hfirst.mpr hinert
      refine ((ih hlinked₁ hrest).mpr ?_).trans hrows
      exact fun y hy => (inert_congr hrows y).mpr (hothers y hy)

end Batch

/-! ## What an earlier batch leaves behind -/

/-- The occurrence exists, or was dropped as a candidate because of a terminal run's flag. -/
def Settled (s : Store) (x : NewScheduledRun × SnapshotAdmissionPolicy) : Prop :=
  s.taken x.1 = true ∨ (x.2.overlap = .replace ∧ x.1.trigger ≠ .catchUp ∧
    s.jobQuarantined x.1.jobId = false ∧ s.spentCandidate x.1.jobId = true)

/-- A new run is not running. -/
theorem overlapDecision_not_running {quarantined meetsOverlap : Bool} {activeCount : Nat}
    {policy : SnapshotAdmissionPolicy} :
    (overlapDecision quarantined meetsOverlap activeCount policy).state ≠ .running := by
  unfold overlapDecision
  split
  · split <;> simp
  split
  · split
    · simp
    · split <;> simp [OverlapDecision.queue]
    · simp
    · simp [OverlapDecision.queue]
  · simp [OverlapDecision.queue]

section Leaves

variable {s s' : Store} {now : Int} {run : NewScheduledRun} {policy : SnapshotAdmissionPolicy}
  {inserted : Bool}

theorem mem_materializeRun (h : s.materializeRun now run policy = .ok (inserted, s')) {r : RunRow}
    (hr : r ∈ s.runs.rows) :
    r ∈ s'.runs.rows ∨ r.makeRoom run.jobId now ∈ s'.runs.rows := by
  rw [(materializeRun_ok h).2.2.2.2]
  have hmem := mem_roomRows hr run.jobId now
    (s.decision run.jobId (run.trigger != .catchUp) policy).candidate
  split at hmem
  · exact Or.inr (List.mem_append_left _ hmem)
  · exact Or.inl (List.mem_append_left _ hmem)

theorem exist_materializeRun (h : s.materializeRun now run policy = .ok (inserted, s'))
    {p : RunRow → Bool} (hp : ∀ r r' : RunRow, r.SameRun r' → p r' = p r)
    (hs : s.runs.exist p = true) : s'.runs.exist p = true := by
  rw [Table.exist_iff] at hs ⊢
  obtain ⟨r, hr, hpr⟩ := hs
  rcases mem_materializeRun h hr with hmem | hmem
  · exact ⟨r, hmem, hpr⟩
  · exact ⟨_, hmem, (hp r _ (r.sameRun_makeRoom run.jobId now)).trans hpr⟩

theorem taken_materializeRun (h : s.materializeRun now run policy = .ok (inserted, s'))
    {run' : NewScheduledRun} (htaken : s.taken run' = true) : s'.taken run' = true := by
  simp only [taken, Bool.or_eq_true] at htaken ⊢
  rcases htaken with (hid | hmanual) | hkey
  · exact Or.inl (Or.inl (exist_materializeRun h (fun r r' h => by rw [h.id]) hid))
  · exact Or.inl (Or.inr hmanual)
  · exact Or.inr (exist_materializeRun h
      (fun r r' h => by rw [h.trigger, h.jobId, h.revision, h.nominal]) hkey)

theorem spentCandidate_materializeRun (h : s.materializeRun now run policy = .ok (inserted, s'))
    {job : Uuid} (hspent : s.spentCandidate job = true) : s'.spentCandidate job = true := by
  rw [spentCandidate_iff] at hspent ⊢
  obtain ⟨r, hr, hjob, hflag, hterminal⟩ := hspent
  rcases mem_materializeRun h hr with hmem | hmem
  · exact ⟨r, hmem, hjob, hflag, hterminal⟩
  · rw [RunRow.makeRoom_of_terminal hterminal] at hmem
    exact ⟨r, hmem, hjob, hflag, hterminal⟩

theorem jobQuarantined_materializeRun_eq (h : s.materializeRun now run policy = .ok (inserted, s'))
    (job : Uuid) : s'.jobQuarantined job = s.jobQuarantined job := by
  rw [Bool.eq_iff_iff]
  simp only [jobQuarantined, Table.exist_iff, Bool.and_eq_true, decide_eq_true_eq]
  constructor
  · rintro ⟨r', hr', hjob, hquarantined⟩
    rw [(materializeRun_ok h).2.2.2.2] at hr'
    rcases List.mem_append.mp hr' with hr' | hr'
    · obtain ⟨r, hr, rfl⟩ := of_mem_roomRows hr'
      refine ⟨r, hr, ?_⟩
      split at hjob
      · next hc =>
        rw [if_pos hc, RunRow.quarantined_makeRoom_eq] at hquarantined
        rw [(r.sameRun_makeRoom run.jobId now).jobId] at hjob
        exact ⟨hjob, hquarantined⟩
      · next hc =>
        rw [if_neg hc] at hquarantined
        exact ⟨hjob, hquarantined⟩
    · split at hr'
      · rw [List.mem_singleton.mp hr'] at hquarantined
        simp only [RunRow.quarantined, newRunRow, Bool.and_eq_true] at hquarantined
        exact absurd (of_decide_eq_true hquarantined.1) overlapDecision_not_running
      · cases hr'
  · rintro ⟨r, hr, hjob, hquarantined⟩
    rcases mem_materializeRun h hr with hmem | hmem
    · exact ⟨r, hmem, hjob, hquarantined⟩
    · exact ⟨_, hmem, (r.sameRun_makeRoom run.jobId now).jobId.trans hjob,
        RunRow.quarantined_makeRoom hquarantined⟩

theorem Settled.materializeRun {x : NewScheduledRun × SnapshotAdmissionPolicy} (hx : s.Settled x)
    (h : s.materializeRun now run policy = .ok (inserted, s')) : s'.Settled x := by
  refine hx.imp (taken_materializeRun h) ?_
  rintro ⟨hoverlap, htrigger, hquarantined, hspent⟩
  refine ⟨hoverlap, htrigger, ?_, spentCandidate_materializeRun h hspent⟩
  rw [jobQuarantined_materializeRun_eq h]
  exact hquarantined

theorem settled_materializeRun (hlinked : s.Linked)
    (h : s.materializeRun now run policy = .ok (inserted, s')) : s'.Settled (run, policy) := by
  obtain ⟨hinserted, hrows⟩ := rows_materializeRun hlinked h
  cases inserted with
  | true =>
    refine Or.inl ?_
    simp only [taken, Bool.or_eq_true, Table.exist_iff, hrows, if_true]
    exact Or.inl (Or.inl ⟨_, List.mem_append_right _ (List.mem_singleton_self _),
      decide_eq_true rfl⟩)
  | false =>
    have hdropped : s.taken run = true ∨ ((s.occurrenceDecision (run, policy)).candidate = true ∧
        s.spentCandidate run.jobId = true) := by
      rw [← Bool.and_eq_true, ← Bool.or_eq_true, ← Bool.not_eq_false']
      exact hinserted.symm
    rcases hdropped with htaken | ⟨hcandidate, hspent⟩
    · exact Or.inl (taken_materializeRun h htaken)
    obtain ⟨hquarantined, hmeets, -, hoverlap⟩ := overlapDecision_candidate.mp hcandidate
    refine Settled.materializeRun (Or.inr ⟨hoverlap, ?_, hquarantined, hspent⟩) h
    simpa using hmeets

theorem settled_materializeRuns {batch : List (NewScheduledRun × SnapshotAdmissionPolicy)}
    {result result' : MaterializedRun} (hlinked : s.Linked)
    (h : s.materializeRuns now batch result = .ok (result', s')) :
    ∀ x ∈ batch, s'.Settled x := by
  induction batch generalizing s result with
  | nil => exact fun x hx => by cases hx
  | cons x batch ih =>
    obtain ⟨inserted, s₁, result₁, hs₁, hrest⟩ := materializeRuns_cons h
    have hfirst : s'.Settled x :=
      materializeRuns_induction (fun _ hx hrun => Settled.materializeRun hx hrun)
        (settled_materializeRun hlinked hs₁) hrest
    exact List.forall_mem_cons.mpr ⟨hfirst, ih (hlinked.materializeRun hs₁) hrest⟩

end Leaves

/-! ## Twice -/

/-- The occurrence finds nothing to do: it does not replace, or the job is in quarantine, or no run
gives way to it and its row is not missing, unless there is unfinished work still. -/
def Calm (s : Store) (run : NewScheduledRun) : Prop :=
  ∀ policy, snapshotAdmissionPolicy run.snapshot = .ok policy → run.trigger ≠ .catchUp →
    policy.overlap = .replace → s.jobQuarantined run.jobId = false →
    s.roomIsMade run.jobId ∧ (s.taken run = true ∨ 0 < s.activeCount run.jobId)

/-- Without unfinished work nothing is in the way. -/
theorem roomIsMade_of_idle {s : Store} {job : Uuid} (h : s.activeCount job = 0) :
    s.roomIsMade job := by
  intro r hr
  by_contra hway
  obtain ⟨hjob, hunfinished⟩ := RunRow.unfinished_of_inTheWay (by simpa using hway)
  exact List.countP_eq_zero.mp h r hr (by simp only [hjob, hunfinished, decide_true, Bool.and_self])

theorem inert_iff_calm {s : Store} {run : NewScheduledRun} {policy : SnapshotAdmissionPolicy}
    (hpolicy : snapshotAdmissionPolicy run.snapshot = .ok policy)
    (hsettled : s.Settled (run, policy)) : s.Inert (run, policy) ↔ s.Calm run := by
  have hcandidate : (s.occurrenceDecision (run, policy)).candidate = true ↔
      s.jobQuarantined run.jobId = false ∧ run.trigger ≠ .catchUp ∧
        0 < s.activeCount run.jobId ∧ policy.overlap = .replace := by
    rw [occurrenceDecision, decision, overlapDecision_candidate, bne_iff_ne]
  constructor
  · rintro ⟨hroom, hdropped⟩ policy' hpolicy' htrigger hoverlap hquarantined
    cases hpolicy.symm.trans hpolicy'
    rcases Nat.eq_zero_or_pos (s.activeCount run.jobId) with hidle | hactive
    · refine ⟨roomIsMade_of_idle hidle, Or.inl ?_⟩
      rcases hdropped with htaken | ⟨hc, -⟩
      · exact htaken
      · have hpos := (hcandidate.mp hc).2.2.1
        omega
    · exact ⟨hroom (hcandidate.mpr ⟨hquarantined, htrigger, hactive, hoverlap⟩), Or.inr hactive⟩
  · intro hcalm
    refine ⟨?_, ?_⟩
    · intro hc
      obtain ⟨hquarantined, htrigger, -, hoverlap⟩ := hcandidate.mp hc
      exact (hcalm policy hpolicy htrigger hoverlap hquarantined).1
    · rcases hsettled with htaken | ⟨hoverlap, htrigger, hquarantined, hspent⟩
      · exact Or.inl htaken
      · refine (hcalm policy hpolicy htrigger hoverlap hquarantined).2.imp_right ?_
        exact fun hactive => ⟨hcandidate.mpr ⟨hquarantined, htrigger, hactive, hoverlap⟩, hspent⟩

section Materialize

variable {s s' : Store} {job : Uuid} {cursor : CursorUpdate} {runs : List NewScheduledRun}
  {summaries : List ReconciliationSummary} {now : Int} {result : MaterializedRun}

theorem materialize_unchanged_iff (hlinked : s.Linked)
    (h : s.materializeWithSummaries job cursor runs summaries now = .ok (result, s'))
    (hsettled : ∀ run ∈ runs, ∀ policy, snapshotAdmissionPolicy run.snapshot = .ok policy →
      s.Settled (run, policy)) : s'.runs = s.runs ↔ ∀ run ∈ runs, s.Calm run := by
  obtain ⟨prepared, s₁, s₂, hprepared, hcursor, hruns, rfl⟩ := materialize_ok h
  obtain ⟨rfl, hpolicies⟩ := of_preparePolicies hprepared
  obtain ⟨-, hsame, hsequence, hrevisions, hjobs, hcursors⟩ := advanceCursor_ok hcursor
  have hlinked₁ : s₁.Linked := hlinked.of_columns hsame hsequence hrevisions hjobs hcursors
  have hsame' : s₁.runs.rows = s.runs.rows := by rw [hsame]
  have hinert : ∀ x ∈ prepared, s₁.Inert x ↔ s.Calm x.1 := by
    intro x hx
    have hpolicy := (hpolicies x hx).2.2
    rw [inert_congr hsame' x]
    exact inert_iff_calm hpolicy (hsettled x.1 (List.mem_map_of_mem hx) x.2 hpolicy)
  calc (s₂.recordSummaries job summaries now).runs = s.runs
      ↔ s₂.runs.rows = s₁.runs.rows := by
        rw [(recordSummaries_keeps s₂ job summaries now).2.1, hsame']
        exact ⟨fun heq => by rw [heq], Table.ext_rows⟩
    _ ↔ ∀ x ∈ prepared, s₁.Inert x := materializeRuns_unchanged_iff hlinked₁ hruns
    _ ↔ ∀ run ∈ prepared.map Prod.fst, s.Calm run := by
        rw [List.forall_mem_map]
        exact forall₂_congr hinert

theorem materialize_settles (hlinked : s.Linked)
    (h : s.materializeWithSummaries job cursor runs summaries now = .ok (result, s')) :
    ∀ run ∈ runs, ∀ policy, snapshotAdmissionPolicy run.snapshot = .ok policy →
      s'.Settled (run, policy) := by
  obtain ⟨prepared, s₁, s₂, hprepared, hcursor, hruns, rfl⟩ := materialize_ok h
  obtain ⟨rfl, hpolicies⟩ := of_preparePolicies hprepared
  obtain ⟨-, hsame, hsequence, hrevisions, hjobs, hcursors⟩ := advanceCursor_ok hcursor
  have hlinked₁ : s₁.Linked := hlinked.of_columns hsame hsequence hrevisions hjobs hcursors
  intro run hrun policy hpolicy
  obtain ⟨x, hx, rfl⟩ := List.mem_map.mp hrun
  cases (hpolicies x hx).2.2.symm.trans hpolicy
  have hsettled := settled_materializeRuns hlinked₁ hruns x hx
  have hkept := (recordSummaries_keeps s₂ job summaries now).2.1
  unfold Settled taken jobQuarantined spentCandidate at hsettled ⊢
  rw [hkept]
  exact hsettled

end Materialize

/-- **When materializing is idempotent.** In every reachable state, a second materialization of the
same occurrences (whatever cursor update brings it) leaves the runs table as the first has left it
exactly if the occurrences are calm then; and a batch of nothing but existing occurrences changes no
run exactly if they are calm. -/
theorem materialize_idempotent_iff {s : Store} (h : Reachable anyOp s) (job : Uuid)
    (runs : List NewScheduledRun) :
    (∀ cursor summaries now result s₁ cursor' summaries' now' result' s₂,
      s.materializeWithSummaries job cursor runs summaries now = .ok (result, s₁) →
      s₁.materializeWithSummaries job cursor' runs summaries' now' = .ok (result', s₂) →
      (s₂.runs = s₁.runs ↔ ∀ run ∈ runs, s₁.Calm run)) ∧
    ∀ cursor summaries now result s', (∀ run ∈ runs, s.taken run = true) →
      s.materializeWithSummaries job cursor runs summaries now = .ok (result, s') →
      (s'.runs = s.runs ↔ ∀ run ∈ runs, s.Calm run) := by
  constructor
  · intro cursor summaries now result s₁ cursor' summaries' now' result' s₂ hfirst hsecond
    have hreachable₁ : Reachable anyOp s₁ := h.tail ⟨.materialize job cursor runs summaries now,
      trivial, Except.map_eq_ok.mpr ⟨_, hfirst, rfl⟩⟩
    exact materialize_unchanged_iff hreachable₁.linked hsecond (materialize_settles h.linked hfirst)
  · intro cursor summaries now result s' htaken hmaterialize
    exact materialize_unchanged_iff h.linked hmaterialize
      (fun run hrun _ _ => Or.inl (htaken run hrun))

def firstOccurrence (snapshot : Snapshot) : NewScheduledRun :=
  ⟨3, 1, 1, .scheduled, 3600000000, 3600000000, 3600000000, snapshot⟩

/-- Materializes the first occurrence and leaves the cursor where it is. -/
def materializeFirst (s : Store) (snapshot : Snapshot) :
    Except StoreError (MaterializedRun × Store) :=
  s.materializeWithSummaries 1 ⟨1, 0, 0, false⟩ [firstOccurrence snapshot] [] 3600000000

theorem exists_twice (snapshot : Snapshot) (P : Store → Store → Prop)
    [∀ s₁ s₂, Decidable (P s₁ s₂)]
    (h : endsIn [.createJob ⟨1, "job", none, "[]", true, snapshot, 0, 0⟩]
      (fun s => ∃ x, s.materializeFirst snapshot = .ok x ∧
        ∃ y, x.2.materializeFirst snapshot = .ok y ∧ P x.2 y.2) = true) :
    ∃ s s₁ s₂ result result', Reachable anyOp s ∧ s.materializeFirst snapshot = .ok (result, s₁) ∧
      s₁.materializeFirst snapshot = .ok (result', s₂) ∧ P s₁ s₂ := by
  obtain ⟨s, hs, x, hfirst, y, hsecond, hP⟩ := exists_reachable anyOp _ _ (fun _ _ _ => trivial) h
  exact ⟨s, x.2, y.2, x.1, y.1, hs, hfirst, hsecond, hP⟩

/-- With the policy to skip, the second copy of an occurrence is dropped without a trace. -/
theorem materialize_idempotent_iff_skip :
    ∃ s s₁ s₂ result result', Reachable anyOp s ∧
      s.materializeFirst retryingJob = .ok (result, s₁) ∧
      s₁.materializeFirst retryingJob = .ok (result', s₂) ∧ s₂.runs = s₁.runs := by
  obtain ⟨s, s₁, s₂, result, result', hs, hfirst, hsecond, -⟩ :=
    exists_twice retryingJob (fun _ _ => True) (by decide +kernel)
  refine ⟨s, s₁, s₂, result, result', hs, hfirst, hsecond, ?_⟩
  refine ((materialize_idempotent_iff hs 1 [firstOccurrence retryingJob]).1 _ _ _ _ _ _ _ _ _ _
    hfirst hsecond).mpr ?_
  intro run hrun policy hpolicy _ hoverlap
  cases List.mem_singleton.mp hrun
  cases hpolicy
  cases hoverlap

/-- **A repeated occurrence supersedes itself.** With the policy to replace, the second copy finds
the first one queued, supersedes it, and is then dropped as its duplicate: no run is left. -/
theorem repeated_occurrence_superseded :
    ∃ s s₁ s₂ result result', Reachable anyOp s ∧
      s.materializeFirst replacedJob = .ok (result, s₁) ∧
      s₁.materializeFirst replacedJob = .ok (result', s₂) ∧
      s₁.taken (firstOccurrence replacedJob) = true ∧
      (s₁.runs.find 3).map (fun r => r.state) = some .queued ∧
      (s₂.runs.find 3).map (fun r => (r.state, r.reason))
        = some (.skippedOverlap, some "superseded by newer replacement") ∧
      s₂.activeCount 1 = 0 := by
  exact exists_twice replacedJob _ (by decide +kernel)

end Store

end Locron
