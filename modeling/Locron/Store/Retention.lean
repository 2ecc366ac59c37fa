import Locron.Lib.Rank
import Locron.Store.Outputs
import Mathlib.Data.Prod.Lex

set_option autoImplicit false

/-! # The selection of runs for retention

The query that lists the runs to delete numbers the terminal runs with window functions; the
transaction that reserves one of them counts the newer runs, and stops counting at the bound. Both
come to the same (`retention_agrees`): by the order of the finish times, with the ids for equal
ones, the number of a run is one more than the count of the newer runs.
-/

namespace Locron

deriving instance DecidableEq for RunRetentionCandidate

/-- What the window functions order by: `finished_at_us DESC, id DESC`. -/
def RunRetentionCandidate.age (c : RunRetentionCandidate) : ℤ ×ₗ ℕ := toLex (c.finishedAt, c.runId)

theorem RunRetentionCandidate.age_lt {a b : RunRetentionCandidate} : a.age < b.age ↔
    a.finishedAt < b.finishedAt ∨ (b.finishedAt = a.finishedAt ∧ a.runId < b.runId) := by
  unfold age
  rw [Prod.Lex.toLex_lt_toLex]
  exact or_congr_right (and_congr_left' eq_comm)

namespace Store

open Ranked

variable {s : Store} {now : Int} {candidate : RunRetentionCandidate}

/-! ## The query -/

/-- The terminal runs with a finish time: the common table expression of the query. -/
def terminalRuns (s : Store) : List RunRetentionCandidate :=
  s.runs.rows.filterMap (fun r =>
    if r.state.isTerminal then r.finishedAt.map (fun finished => ⟨r.id, r.jobId, finished⟩)
    else none)

def terminalRunsOf (s : Store) (job : Uuid) : List RunRetentionCandidate :=
  s.terminalRuns.filter (fun c => c.jobId = job)

/-- The condition of the query on a row and its two numbers. -/
def expired (s : Store) (now : Int) (c : RunRetentionCandidate) : Bool :=
  !s.retentionPending.contains c.runId
  && (s.settings.runRetentionAge.any (fun age => c.finishedAt < saturate (now - age))
    || 1000 < rowNumber RunRetentionCandidate.age (s.terminalRunsOf c.jobId) c
    || s.settings.runRetentionCount < rowNumber RunRetentionCandidate.age s.terminalRuns c)

/-- All rows that the query finds, those that finished first. -/
def expiredRuns (s : Store) (now : Int) : List RunRetentionCandidate :=
  (s.terminalRuns.filter (s.expired now)).insertionSort (fun a b => a.age ≤ b.age)

/-- The runs that retention may delete, up to the limit of a batch. -/
def runRetentionCandidates (s : Store) (now : Int) (limit : Nat) : List RunRetentionCandidate :=
  (s.expiredRuns now).take (maintenanceLimit limit)

/-! ## Row numbers and counts -/

/-- Counting may stop at the bound that the count is compared with. -/
theorem le_limitedCount {limit : Int} {n : Nat} : limit ≤ limitedCount limit n ↔ limit ≤ n := by
  unfold limitedCount
  split
  · omega
  · omega

theorem mem_terminalRuns : candidate ∈ s.terminalRuns ↔ ∃ r, s.runs.find candidate.runId = some r ∧
    r.jobId = candidate.jobId ∧ r.finishedAt = some candidate.finishedAt ∧
      r.state.isTerminal = true := by
  unfold terminalRuns
  rw [List.mem_filterMap]
  constructor
  · rintro ⟨r, hr, hrow⟩
    by_cases hterminal : r.state.isTerminal = true
    · rw [if_pos hterminal, Option.map_eq_some_iff] at hrow
      obtain ⟨finished, hfinished, rfl⟩ := hrow
      exact ⟨r, Table.find_of_mem hr, rfl, hfinished, hterminal⟩
    · rw [if_neg hterminal] at hrow
      cases hrow
  · rintro ⟨r, hfind, hjob, hfinished, hterminal⟩
    refine ⟨r, Table.mem_of_find hfind, ?_⟩
    rw [if_pos hterminal, hfinished, hjob, Table.key_of_find hfind]
    rfl

/-- No two terminal runs stand at the same place: the ids differ. -/
theorem nodup_age_terminalRuns : (s.terminalRuns.map RunRetentionCandidate.age).Nodup := by
  have hpairwise : s.terminalRuns.Pairwise (fun a b => a.runId ≠ b.runId) := by
    have hids := s.runs.nodup
    rw [List.Nodup, List.pairwise_map] at hids
    refine List.Pairwise.filterMap _ (fun r r' hne c hc c' hc' => ?_) hids
    have hid : ∀ {r : RunRow} {c : RunRetentionCandidate}, c ∈ (if r.state.isTerminal then
        r.finishedAt.map (fun finished => (⟨r.id, r.jobId, finished⟩ : RunRetentionCandidate))
        else none) → c.runId = r.id := by
      intro r c h
      split at h
      · obtain ⟨_, -, rfl⟩ := Option.map_eq_some_iff.mp h
        rfl
      · cases h
    rw [hid hc, hid hc']
    exact hne
  rw [List.Nodup, List.pairwise_map]
  exact hpairwise.imp (fun hne heq => hne (congrArg (fun place => (ofLex place).2) heq))

theorem count_newer (p : RunRow → Bool) (q : RunRetentionCandidate → Bool)
    (hpq : ∀ x finished, p x = q ⟨x.id, x.jobId, finished⟩) (r : RunRow) (finished : Int) :
    s.runs.count (fun x => p x && newerThan r finished x) = s.terminalRuns.countP
      (fun c =>
        decide ((⟨r.id, r.jobId, finished⟩ : RunRetentionCandidate).age < c.age) && q c) := by
  unfold terminalRuns Table.count
  rw [List.countP_filterMap]
  refine List.countP_congr (fun x _ => ?_)
  unfold newerThan
  cases x.state.isTerminal with
  | false => simp
  | true =>
    cases x.finishedAt with
    | none => simp
    | some t => simp [RunRetentionCandidate.age_lt, and_comm, hpq x t]

theorem nodup_age_terminalRunsOf {job : Uuid} :
    ((s.terminalRunsOf job).map RunRetentionCandidate.age).Nodup :=
  nodup_age_terminalRuns.sublist (List.filter_sublist.map _)

theorem mem_terminalRunsOf (h : candidate ∈ s.terminalRuns) :
    candidate ∈ s.terminalRunsOf candidate.jobId :=
  List.mem_filter.mpr ⟨h, decide_eq_true rfl⟩

/-- One of the bounds of the query is passed. -/
def Exceeds (s : Store) (now : Int) (c : RunRetentionCandidate) : Prop :=
  (∃ age ∈ s.settings.runRetentionAge, c.finishedAt < saturate (now - age)) ∨
    1000 < rowNumber RunRetentionCandidate.age (s.terminalRunsOf c.jobId) c ∨
    s.settings.runRetentionCount < rowNumber RunRetentionCandidate.age s.terminalRuns c

/-- **The recheck is the condition of the query**, on the terminal runs. -/
theorem retentionEligible_iff : s.retentionEligible candidate now = true ↔
    candidate ∈ s.terminalRuns ∧ s.Exceeds now candidate := by
  rw [mem_terminalRuns]
  unfold retentionEligible Exceeds
  cases hfind : s.runs.find candidate.runId with
  | none => simp
  | some r =>
    have hjobBound : ∀ n : Nat, 1000 ≤ limitedCount 1000 n ↔ 1000 ≤ n := fun n => by
      have h := @le_limitedCount 1000 n
      omega
    simp only [Bool.and_eq_true, Bool.or_eq_true, decide_eq_true_eq, Option.any_eq_true,
      Option.some.injEq, exists_eq_left', and_assoc, or_assoc, hjobBound, le_limitedCount]
    refine and_congr_right (fun hjob => and_congr_right (fun hfinished => and_congr_right
      (fun hterminal => or_congr_right ?_)))
    have hmem : candidate ∈ s.terminalRuns :=
      mem_terminalRuns.mpr ⟨r, hfind, hjob, hfinished, hterminal⟩
    have hcandidate : (⟨r.id, r.jobId, candidate.finishedAt⟩ : RunRetentionCandidate)
      = candidate := by
      rw [hjob, Table.key_of_find hfind]
    have hglobal := @count_newer s (fun _ => true) (fun _ => true) (fun _ _ => rfl) r
      candidate.finishedAt
    have hown := @count_newer s (fun x => x.jobId = r.jobId) (fun c => c.jobId = candidate.jobId)
      (fun x _ => by rw [hjob]) r candidate.finishedAt
    simp only [hcandidate, Bool.true_and, Bool.and_true] at hglobal hown
    rw [hown, hglobal, rowNumber_eq nodup_age_terminalRuns hmem,
      rowNumber_eq nodup_age_terminalRunsOf (mem_terminalRunsOf hmem), terminalRunsOf,
      List.countP_filter]
    omega

/-! ## The bounds -/

/-- The run is recent enough, among the newest that are kept, and among the newest 1000 of its
job. -/
structure WithinBounds (s : Store) (now : Int) (c : RunRetentionCandidate) : Prop where
  age : ∀ age ∈ s.settings.runRetentionAge, saturate (now - age) ≤ c.finishedAt
  newest : c ∈ (descending RunRetentionCandidate.age s.terminalRuns).take
    s.settings.runRetentionCount.toNat
  newestOfJob : c ∈ (descending RunRetentionCandidate.age (s.terminalRunsOf c.jobId)).take 1000

theorem not_exceeds_iff (hmem : candidate ∈ s.terminalRuns) :
    ¬ s.Exceeds now candidate ↔ s.WithinBounds now candidate := by
  have hnewest := @mem_take_descending _ _ _ RunRetentionCandidate.age s.terminalRuns candidate _
    nodup_age_terminalRuns hmem s.settings.runRetentionCount.toNat
  have hofJob := @mem_take_descending _ _ _ RunRetentionCandidate.age
    (s.terminalRunsOf candidate.jobId) candidate _ nodup_age_terminalRunsOf
    (mem_terminalRunsOf hmem) 1000
  unfold Exceeds
  rw [rowNumber_eq nodup_age_terminalRuns hmem,
    rowNumber_eq nodup_age_terminalRunsOf (mem_terminalRunsOf hmem), not_or, not_or]
  constructor
  · rintro ⟨hage, hjob, hcount⟩
    refine ⟨fun age hsome => ?_, hnewest.mpr (by omega), hofJob.mpr (by omega)⟩
    exact not_lt.mp (fun hlt => hage ⟨age, hsome, hlt⟩)
  · rintro ⟨hage, hcount, hjob⟩
    have hfew := hnewest.mp hcount
    have hfewOfJob := hofJob.mp hjob
    exact ⟨fun ⟨age, hsome, hlt⟩ => (hage age hsome).not_gt hlt, by omega, by omega⟩

/-- The reservation of the run succeeds. -/
def Accepts (s : Store) (now : Int) (candidate : RunRetentionCandidate) : Prop :=
  ∃ s', s.markRunRetentionPending candidate now = .ok s'

theorem accepts_iff : s.Accepts now candidate ↔
    candidate ∈ s.terminalRuns ∧ s.Exceeds now candidate := by
  rw [← retentionEligible_iff]
  unfold Accepts markRunRetentionPending
  cases s.retentionEligible candidate now with
  | false => simp
  | true =>
    rw [if_pos rfl]
    split <;> simp

theorem mem_expiredRuns : candidate ∈ s.expiredRuns now ↔
    candidate.runId ∉ s.retentionPending ∧ s.Accepts now candidate := by
  rw [accepts_iff]
  unfold expiredRuns expired Exceeds
  simp only [List.mem_insertionSort, List.mem_filter, Bool.and_eq_true, Bool.or_eq_true,
    Bool.not_eq_true', decide_eq_true_eq, Option.any_eq_true, or_assoc, List.contains_eq_mem,
    decide_eq_false_iff_not]
  exact and_left_comm

theorem pairwise_expiredRuns : (s.expiredRuns now).Pairwise (fun a b => a.age < b.age) :=
  @pairwise_descending _ _ _ (fun c : RunRetentionCandidate => OrderDual.toDual c.age) _
    (nodup_age_terminalRuns.sublist (List.filter_sublist.map _))

/-- **Selection and recheck agree.** A batch of the query, for any limit, are the oldest of the runs
that are not reserved yet and whose reservation succeeds: all of them, unless the batch is full.
Accepted runs are terminal; and a run is never accepted exactly if it is not terminal, has no finish
time or is within all three bounds. -/
theorem retention_agrees (s : Store) (now : Int) :
    (∀ limit, (s.runRetentionCandidates now limit).length ≤ maintenanceLimit limit ∧
      (∀ candidate ∈ s.runRetentionCandidates now limit,
        candidate.runId ∉ s.retentionPending ∧ s.Accepts now candidate) ∧
      ∀ candidate, candidate.runId ∉ s.retentionPending → s.Accepts now candidate →
        candidate ∈ s.runRetentionCandidates now limit ∨
          (s.runRetentionCandidates now limit).length = maintenanceLimit limit ∧
          ∀ older ∈ s.runRetentionCandidates now limit, older.age < candidate.age) ∧
    (∀ candidate, s.Accepts now candidate →
      ∃ r, s.runs.find candidate.runId = some r ∧ r.state.isTerminal = true) ∧
    ∀ r ∈ s.runs.rows, (∀ candidate, candidate.runId = r.id → ¬ s.Accepts now candidate) ↔
      (r.state.isTerminal = false ∨ ∀ finished, r.finishedAt = some finished →
        s.WithinBounds now ⟨r.id, r.jobId, finished⟩) := by
  refine ⟨fun limit => ⟨List.length_take_le _ _, fun candidate hmem => ?_,
    fun candidate hfree haccepts => ?_⟩, fun candidate haccepts => ?_, fun r hr => ?_⟩
  · exact mem_expiredRuns.mp (List.mem_of_mem_take hmem)
  -- a run that is not in the batch comes later in the order than the whole batch
  · have hlisted := mem_expiredRuns.mpr ⟨hfree, haccepts⟩
    have hsorted := @pairwise_expiredRuns s now
    rw [← List.take_append_drop (maintenanceLimit limit) (s.expiredRuns now)] at hlisted hsorted
    rcases List.mem_append.mp hlisted with hmem | hmem
    · exact Or.inl hmem
    have hmore := List.length_pos_of_mem hmem
    rw [List.length_drop] at hmore
    refine Or.inr ⟨List.length_take_of_le (by omega), fun older holder => ?_⟩
    exact (List.pairwise_append.mp hsorted).2.2 older holder candidate hmem
  · obtain ⟨r, hfind, -, -, hterminal⟩ := mem_terminalRuns.mp (accepts_iff.mp haccepts).1
    exact ⟨r, hfind, hterminal⟩
  · have hfind : s.runs.find r.id = some r := Table.find_of_mem hr
    constructor
    · intro hnever
      cases hterminal : r.state.isTerminal with
      | false => exact Or.inl rfl
      | true =>
        refine Or.inr (fun finished hfinished => ?_)
        have hmem : ⟨r.id, r.jobId, finished⟩ ∈ s.terminalRuns :=
          mem_terminalRuns.mpr ⟨r, hfind, rfl, hfinished, hterminal⟩
        exact (not_exceeds_iff hmem).mp
          (fun hexceeds => hnever _ rfl (accepts_iff.mpr ⟨hmem, hexceeds⟩))
    · rintro hkept candidate hid haccepts
      obtain ⟨hmem, hexceeds⟩ := accepts_iff.mp haccepts
      obtain ⟨r', hfind', hjob, hfinished, hterminal⟩ := mem_terminalRuns.mp hmem
      obtain rfl : r' = r := Option.some.inj (hfind'.symm.trans (hid ▸ hfind))
      rcases hkept with hlive | hbounds
      · rw [hlive] at hterminal
        cases hterminal
      have hsame : (⟨r'.id, r'.jobId, candidate.finishedAt⟩ : RunRetentionCandidate)
        = candidate := by
        rw [hjob, ← hid]
      exact (not_exceeds_iff hmem).mpr (hsame ▸ hbounds _ hfinished) hexceeds

end Store

end Locron
