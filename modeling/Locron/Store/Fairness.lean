import Locron.Lib.Turns
import Locron.Store.QueueEffect

set_option autoImplicit false

/-! # Fair admission

The engine has a selector that takes one item from each job in turn (`roundRobin`). The store admits
runs with a loop of its own, which takes turns in the same order but tests each run against the
limit of its job, and a run over the limit uses up the turn of its job. Both loops are the one of
`Lib.Turns`, so the two selections can be compared: they agree unless a run that does not fit is
waiting ahead of one that does, as after an update that raises the limit.
-/

namespace Locron

/-! ## The selector of the engine -/

/-- A queued work item considered by round-robin admission. -/
structure Candidate (α : Type) where
  jobId : Uuid
  value : α

section RoundRobin

variable {α : Type}

/-- One pass over the jobs: each gives its first item, until the capacity is used up. -/
def roundRobinPass (capacity : Nat) :
    List Uuid → Turns.State (Candidate α) → Turns.State (Candidate α)
  | [], st => st
  | job :: jobs, st =>
    match st.waiting.find? (fun c => c.jobId = job) with
    | none => roundRobinPass capacity jobs st
    | some item =>
      let st' : Turns.State (Candidate α) :=
        ⟨st.waiting.eraseP (fun c => c.jobId = job), st.selected ++ [item]⟩
      if st'.selected.length = capacity then st' else roundRobinPass capacity jobs st'

/-- Passes until the capacity is used up or a pass finds no item; each takes at least one of the
waiting items. -/
def roundRobinPasses (capacity : Nat) (jobs : List Uuid) :
    Nat → Turns.State (Candidate α) → Turns.State (Candidate α)
  | 0, st => st
  | fuel + 1, st =>
    if capacity ≤ st.selected.length then st
    else
      let st' := roundRobinPass capacity jobs st
      if st'.waiting.length = st.waiting.length then st'
      else roundRobinPasses capacity jobs fuel st'

/-- Selects at most `capacity` items, rotating across jobs and admitting at most one item per job in
each pass. -/
def roundRobin (candidates : List (Candidate α)) (afterJob : Option Uuid) (capacity : Nat) :
    List (Candidate α) :=
  if capacity = 0 then []
  else
    let jobs := Turns.rotation afterJob (candidates.map (fun c => c.jobId))
    (roundRobinPasses capacity jobs (candidates.length + 1) ⟨candidates, []⟩).selected

/-- The test that every item passes. -/
def acceptAll (_ : List (Candidate α)) (_ : Candidate α) : Except Empty Bool := .ok true

theorem pass_acceptAll (capacity : Nat) (jobs : List Uuid) (st : Turns.State (Candidate α)) :
    Turns.pass Candidate.jobId acceptAll capacity jobs st
      = .ok (roundRobinPass capacity jobs st) := by
  induction jobs generalizing st with
  | nil => rfl
  | cons job jobs ih =>
    unfold Turns.pass roundRobinPass
    cases st.waiting.find? (fun c => c.jobId = job) with
    | none => exact ih st
    | some item =>
      dsimp only [acceptAll, Turns.State.take, if_true]
      by_cases hfull : (st.selected ++ [item]).length = capacity
      · simp only [if_true, hfull]
      · simp only [if_true, hfull, if_false]
        exact ih _

theorem rounds_acceptAll (capacity : Nat) (jobs : List Uuid) (fuel : Nat)
    (st : Turns.State (Candidate α)) :
    Turns.rounds Candidate.jobId acceptAll capacity jobs fuel st
      = .ok (roundRobinPasses capacity jobs fuel st) := by
  induction fuel generalizing st with
  | zero => rfl
  | succ fuel ih =>
    unfold Turns.rounds roundRobinPasses
    by_cases hfull : capacity ≤ st.selected.length
    · rw [if_pos hfull, if_pos hfull]
    rw [if_neg hfull, if_neg hfull, pass_acceptAll]
    dsimp only
    by_cases hnone : (roundRobinPass capacity jobs st).waiting.length = st.waiting.length
    · rw [if_pos hnone, if_pos hnone]
    · rw [if_neg hnone, if_neg hnone]
      exact ih _

/-- **The selector takes the first of all turns.** -/
theorem roundRobin_eq (candidates : List (Candidate α)) (afterJob : Option Uuid) (capacity : Nat) :
    roundRobin candidates afterJob capacity
      = (Turns.turns (Turns.rotation afterJob (candidates.map Candidate.jobId))
          (Turns.queue Candidate.jobId candidates) (candidates.length + 1)).take capacity := by
  unfold roundRobin
  by_cases hzero : capacity = 0
  · rw [if_pos hzero, hzero, List.take_zero]
  rw [if_neg hzero]
  obtain ⟨st, hst, hselected⟩ := @Turns.rounds_eq _ _ _ _ Candidate.jobId acceptAll
    (fun _ : Candidate α => (.ok true : Except Empty Bool)) candidates capacity ⟨candidates, []⟩
    (fun _ _ _ _ _ _ => rfl) (fun _ _ => ⟨true, rfl⟩)
    (Turns.rotation afterJob (candidates.map Candidate.jobId)) (Turns.nodup_rotation _ _)
    (candidates.length + 1) (Turns.consistent_start _ _ _) (Nat.zero_le _) (Nat.lt_succ_self _)
  rw [rounds_acceptAll] at hst
  have hfits : Turns.fits (fun _ : Candidate α => (.ok true : Except Empty Bool))
      = fun _ => true := rfl
  rw [hfits, List.filter_true, List.nil_append, ← Except.ok.inj hst] at hselected
  exact hselected

end RoundRobin

/-! ## The loop of the store -/

namespace Store

/-- The runs that may be admitted, in admission order. -/
def waitingRuns (s : Store) (now : Int) : List RunRow :=
  (s.runs.rows.filter (s.eligible now)).insertionSort admissionLe

def selectRuns (s : Store) (prepared : Uuid → Option Snapshot) (now : Int) (capacity : Nat) :
    Except StoreError (List RunRow) :=
  let rows := s.eligibleRuns now (capacity * 64)
  (s.selectRounds prepared capacity (s.jobOrder rows) (rows.length + 1) ⟨rows, []⟩).map
    (fun sel => sel.selected)

/-- The test of a row: its snapshot is prepared, and the limit of its job leaves room beside the
live runs and those selected before. -/
def accepts (s : Store) (prepared : Uuid → Option Snapshot) (selected : List RunRow)
    (row : RunRow) : Except StoreError Bool :=
  if prepared row.id ≠ some row.snapshot then .ok false
  else
    match snapshotAdmissionPolicy row.snapshot with
    | .error e => .error e
    | .ok policy =>
      let occupied := s.liveCount row.jobId + selected.countP (fun r => r.jobId = row.jobId)
      .ok (occupied < perJobLimit policy)

/-- The rows of one job that fit, if they are tested in order. -/
def fittingAmong (s : Store) (prepared : Uuid → Option Snapshot) (queue : List RunRow) :
    List RunRow :=
  queue.foldl (fun fitting row =>
    match s.accepts prepared fitting row with
    | .ok true => fitting ++ [row]
    | _ => fitting) []

def ahead (rows : List RunRow) (row : RunRow) : List RunRow :=
  (Turns.queue RunRow.jobId rows row.jobId).takeWhile (fun r => r.id ≠ row.id)

/-- Whether a row fits beside those of its job ahead of it. -/
def verdict (s : Store) (prepared : Uuid → Option Snapshot) (rows : List RunRow) (row : RunRow) :
    Except StoreError Bool :=
  s.accepts prepared (s.fittingAmong prepared (ahead rows row)) row

/-- The candidates, restricted by the limits of their jobs. -/
def fittingRuns (s : Store) (prepared : Uuid → Option Snapshot) (rows : List RunRow) :
    List RunRow :=
  rows.filter (Turns.fits (s.verdict prepared rows))

section Loop

variable {s : Store} {prepared : Uuid → Option Snapshot} {capacity : Nat}

theorem selectFirst_eq {st : Turns.State RunRow} {row : RunRow} :
    s.selectFirst prepared row.jobId ⟨st.waiting, st.selected⟩ row
      = (s.accepts prepared st.selected row).map (fun accepted =>
          let st' := st.take RunRow.jobId row.jobId row accepted
          ⟨st'.waiting, st'.selected⟩) := by
  unfold selectFirst accepts
  by_cases hprepared : prepared row.id ≠ some row.snapshot
  · rw [if_pos hprepared, if_pos hprepared]
    rfl
  rw [if_neg hprepared, if_neg hprepared]
  cases snapshotAdmissionPolicy row.snapshot with
  | error e => rfl
  | ok policy =>
    dsimp only
    generalize s.liveCount row.jobId + st.selected.countP (fun r => r.jobId = row.jobId)
      = occupied
    by_cases hroom : (occupied : Int) < perJobLimit policy
    · rw [if_pos hroom, decide_eq_true hroom]
      rfl
    · rw [if_neg hroom, decide_eq_false hroom]
      rfl

theorem selectRound_eq (jobs : List Uuid) (st : Turns.State RunRow) :
    s.selectRound prepared capacity jobs ⟨st.waiting, st.selected⟩
      = (Turns.pass RunRow.jobId (s.accepts prepared) capacity jobs st).map
          (fun st => ⟨st.waiting, st.selected⟩) := by
  induction jobs generalizing st with
  | nil => rfl
  | cons job jobs ih =>
    unfold selectRound Turns.pass
    cases hfind : st.waiting.find? (fun r => r.jobId = job) with
    | none => exact ih st
    | some row =>
      have hjob : row.jobId = job := by simpa using List.find?_some hfind
      subst hjob
      dsimp only
      rw [selectFirst_eq]
      cases s.accepts prepared st.selected row with
      | error e => rfl
      | ok accepted =>
        simp only [Except.map]
        split
        · rfl
        · exact ih _

theorem selectRounds_eq (jobs : List Uuid) (fuel : Nat) (st : Turns.State RunRow) :
    s.selectRounds prepared capacity jobs fuel ⟨st.waiting, st.selected⟩
      = (Turns.rounds RunRow.jobId (s.accepts prepared) capacity jobs fuel st).map
          (fun st => ⟨st.waiting, st.selected⟩) := by
  induction fuel generalizing st with
  | zero => rfl
  | succ fuel ih =>
    unfold selectRounds Turns.rounds
    dsimp only
    split
    · rfl
    rw [selectRound_eq]
    cases Turns.pass RunRow.jobId (s.accepts prepared) capacity jobs st with
    | error e => rfl
    | ok st' =>
      simp only [Except.map]
      split
      · rfl
      · exact ih st'

end Loop

section Verdict

variable {s : Store} {prepared : Uuid → Option Snapshot} {rows : List RunRow}

/-- The test looks only at the selected rows of the same job. -/
theorem accepts_congr {selected selected' : List RunRow} {row : RunRow}
    (h : Turns.queue RunRow.jobId selected row.jobId =
      Turns.queue RunRow.jobId selected' row.jobId) :
    s.accepts prepared selected row = s.accepts prepared selected' row := by
  have hcount : selected.countP (fun r => r.jobId = row.jobId)
      = selected'.countP (fun r => r.jobId = row.jobId) := by
    rw [List.countP_eq_length_filter, List.countP_eq_length_filter]
    exact congrArg List.length h
  unfold accepts
  rw [hcount]

theorem ahead_eq (hnodup : (rows.map RunRow.id).Nodup) {row : RunRow} {front behind : List RunRow}
    (h : Turns.queue RunRow.jobId rows row.jobId = front ++ row :: behind) :
    ahead rows row = front := by
  have hids : ((front ++ row :: behind).map RunRow.id).Nodup := by
    rw [← h]
    exact hnodup.sublist (List.filter_sublist.map _)
  rw [List.map_append, List.map_cons, List.nodup_append] at hids
  have hne : ∀ r ∈ front, (decide (r.id ≠ row.id)) = true := by
    intro r hr
    refine decide_eq_true fun heq => ?_
    exact hids.2.2 r.id (List.mem_map_of_mem hr) row.id List.mem_cons_self heq
  unfold ahead
  rw [h, List.takeWhile_append_of_pos hne, List.takeWhile_cons_of_neg (by simp), List.append_nil]

/-- Testing a queue in order selects the rows that fit. -/
theorem fittingAmong_eq (hnodup : (rows.map RunRow.id).Nodup) {job : Uuid} (front : List RunRow)
    {behind : List RunRow} (h : Turns.queue RunRow.jobId rows job = front ++ behind) :
    s.fittingAmong prepared front = front.filter (Turns.fits (s.verdict prepared rows)) := by
  induction front using List.reverseRecOn generalizing behind with
  | nil => rfl
  | append_singleton front row ih =>
    rw [List.append_assoc] at h
    have hjob : row.jobId = job := by
      have hmem : row ∈ Turns.queue RunRow.jobId rows job := by simp [h]
      exact (Turns.mem_queue.mp hmem).2
    have hverdict : s.verdict prepared rows row
        = s.accepts prepared (s.fittingAmong prepared front) row := by
      unfold verdict
      rw [ahead_eq hnodup (by rw [hjob]; exact h)]
    have hstep : s.fittingAmong prepared (front ++ [row])
        = match s.accepts prepared (s.fittingAmong prepared front) row with
          | .ok true => s.fittingAmong prepared front ++ [row]
          | _ => s.fittingAmong prepared front := by
      unfold fittingAmong
      rw [List.foldl_append]
      rfl
    rw [hstep, ← hverdict, ih h, List.filter_append]
    cases hresult : s.verdict prepared rows row with
    | error e => simp [Turns.fits, hresult]
    | ok accepted =>
      cases accepted with
      | true | false => simp [Turns.fits, hresult]

theorem decides_accepts (hnodup : (rows.map RunRow.id).Nodup) :
    Turns.Decides RunRow.jobId (s.accepts prepared) (s.verdict prepared rows) rows := by
  intro selected row front behind hqueue hselected
  unfold verdict
  rw [ahead_eq hnodup hqueue]
  apply accepts_congr
  rw [hselected, fittingAmong_eq hnodup front hqueue, Turns.queue]
  symm
  rw [List.filter_eq_self]
  intro r hr
  have hmem : r ∈ Turns.queue RunRow.jobId rows row.jobId := by
    rw [hqueue]
    exact List.mem_append_left _ (List.mem_of_mem_filter hr)
  exact decide_eq_true (Turns.mem_queue.mp hmem).2

def Readable (prepared : Uuid → Option Snapshot) (rows : List RunRow) : Prop :=
  ∀ r ∈ rows, prepared r.id = some r.snapshot →
    ∃ policy, snapshotAdmissionPolicy r.snapshot = .ok policy

theorem accepts_ok_iff {selected : List RunRow} {row : RunRow} :
    (∃ accepted, s.accepts prepared selected row = .ok accepted) ↔
      (prepared row.id = some row.snapshot →
        ∃ policy, snapshotAdmissionPolicy row.snapshot = .ok policy) := by
  unfold accepts
  by_cases hprepared : prepared row.id = some row.snapshot
  · cases snapshotAdmissionPolicy row.snapshot with
    | error | ok => simp [hprepared]
  · simp [hprepared]

end Verdict

/-! ## The two selections -/

section Selection

variable (s : Store) (prepared : Uuid → Option Snapshot) (now : Int)

theorem nodup_waitingRuns : ((s.waitingRuns now).map RunRow.id).Nodup := by
  have hperm := (List.perm_insertionSort admissionLe (s.runs.rows.filter (s.eligible now))).map
    RunRow.id
  exact hperm.nodup_iff.mpr (s.runs.nodup.sublist (List.filter_sublist.map _))

def allTurns (last : Option Uuid) : List RunRow :=
  Turns.turns (Turns.rotation last ((s.waitingRuns now).map RunRow.jobId))
    (Turns.queue RunRow.jobId (s.waitingRuns now)) ((s.waitingRuns now).length + 1)

omit prepared now in
theorem jobOrder_eq (rows : List RunRow) :
    s.jobOrder rows = Turns.rotation s.lastAdmittedJob (rows.map RunRow.jobId) := by
  unfold jobOrder Turns.rotation
  cases s.lastAdmittedJob with
  | none | some => rfl

/-- The selection is a run of the loop over the waiting runs, if they fit in the window. -/
theorem selectRuns_eq_rounds (last : Option Uuid) {capacity : Nat}
    (hwindow : (s.waitingRuns now).length ≤ capacity * 64) :
    { s with lastAdmittedJob := last }.selectRuns prepared now capacity
      = (Turns.rounds RunRow.jobId (s.accepts prepared) capacity
          (Turns.rotation last ((s.waitingRuns now).map RunRow.jobId))
          ((s.waitingRuns now).length + 1) ⟨s.waitingRuns now, []⟩).map
            (fun st => st.selected) := by
  have hrows : ({ s with lastAdmittedJob := last } : Store).eligibleRuns now (capacity * 64)
      = s.waitingRuns now := List.take_of_length_le hwindow
  have hrounds := @selectRounds_eq { s with lastAdmittedJob := last } prepared capacity
    (Turns.rotation last ((s.waitingRuns now).map RunRow.jobId)) ((s.waitingRuns now).length + 1)
    ⟨s.waitingRuns now, []⟩
  unfold selectRuns
  dsimp only
  rw [hrows, jobOrder_eq]
  dsimp only
  rw [hrounds]
  show ((Turns.rounds RunRow.jobId (s.accepts prepared) capacity _ _ _).map _).map _ = _
  cases Turns.rounds RunRow.jobId (s.accepts prepared) capacity
    (Turns.rotation last ((s.waitingRuns now).map RunRow.jobId)) ((s.waitingRuns now).length + 1)
    ⟨s.waitingRuns now, []⟩ with
  | error e => rfl
  | ok st => rfl

/-- **The loop of the store selects those of all turns that fit**, up to the capacity. -/
theorem selectRuns_eq (hreadable : Readable prepared (s.waitingRuns now)) (last : Option Uuid)
    {capacity : Nat} (hwindow : (s.waitingRuns now).length ≤ capacity * 64) :
    { s with lastAdmittedJob := last }.selectRuns prepared now capacity
      = .ok (((s.allTurns now last).filter
          (Turns.fits (s.verdict prepared (s.waitingRuns now)))).take capacity) := by
  have hverdicts : ∀ row ∈ s.waitingRuns now, ∃ accepted,
      s.verdict prepared (s.waitingRuns now) row = .ok accepted :=
    fun row hrow => accepts_ok_iff.mpr (hreadable row hrow)
  obtain ⟨st, hst, hselected⟩ := @Turns.rounds_eq _ _ _ _ RunRow.jobId (s.accepts prepared)
    (s.verdict prepared (s.waitingRuns now)) (s.waitingRuns now) capacity ⟨s.waitingRuns now, []⟩
    (decides_accepts (s.nodup_waitingRuns now)) hverdicts
    (Turns.rotation last ((s.waitingRuns now).map RunRow.jobId)) (Turns.nodup_rotation _ _)
    ((s.waitingRuns now).length + 1) (Turns.consistent_start _ _ _) (Nat.zero_le _)
    (Nat.lt_succ_self _)
  rw [s.selectRuns_eq_rounds prepared now last hwindow, hst]
  rw [List.nil_append] at hselected
  exact congrArg Except.ok hselected

/-- Below the capacity, every prepared snapshot has been read. -/
theorem readable_of_selectRuns {last : Option Uuid} {capacity : Nat} {selected : List RunRow}
    (hwindow : (s.waitingRuns now).length ≤ capacity * 64)
    (h : { s with lastAdmittedJob := last }.selectRuns prepared now capacity = .ok selected)
    (hlength : selected.length < capacity) : Readable prepared (s.waitingRuns now) := by
  rw [s.selectRuns_eq_rounds prepared now last hwindow] at h
  obtain ⟨st, hst, rfl⟩ := Except.map_eq_ok.mp h
  intro row hrow
  refine accepts_ok_iff.mp (Turns.rounds_tested (decides_accepts (s.nodup_waitingRuns now))
    (Turns.consistent_start _ _ _) ?_ (Nat.lt_succ_self _) hst hlength row hrow)
  intro r hr
  exact Turns.mem_rotation.mpr (List.mem_map_of_mem hr)

def candidate (row : RunRow) : Candidate RunRow := ⟨row.jobId, row⟩

/-- The selector on rows takes the first of all turns over them. -/
theorem roundRobin_candidates (rows : List RunRow) (last : Option Uuid) (capacity : Nat) :
    (roundRobin (rows.map candidate) last capacity).map Candidate.value
      = (Turns.turns (Turns.rotation last (rows.map RunRow.jobId))
          (Turns.queue RunRow.jobId rows) (rows.length + 1)).take capacity := by
  have hqueue : Turns.queue Candidate.jobId (rows.map candidate)
      = fun job => (Turns.queue RunRow.jobId rows job).map candidate :=
    funext fun job => Turns.queue_map candidate rows job
  have hjobs : (rows.map candidate).map Candidate.jobId = rows.map RunRow.jobId := by
    rw [List.map_map]
    rfl
  have hvalues : ∀ l : List RunRow, (l.map candidate).map Candidate.value = l := by
    intro l
    rw [List.map_map]
    exact List.map_id l
  rw [roundRobin_eq, hqueue, hjobs, List.length_map, Turns.turns_map, ← List.map_take, hvalues]

/-- **The admission of the store is the round robin of the engine on the runs that fit, for every
last job and capacity, exactly when every prepared snapshot can be read and no run that does not fit
moves another one to a later round than a run of another job.** In any case the selected runs are
those that fit, in the order of the turns, and no capacity is left over while one of them waits. -/
theorem admission_fair_iff :
    (∀ lifetime guard admitted s', s.admitRuns prepared lifetime now guard = .ok (admitted, s') →
      s.selectRuns prepared now (s.capacity guard) = .ok (admitted.map Prod.fst)) ∧
    (Readable prepared (s.waitingRuns now) → ∀ last capacity,
      (s.waitingRuns now).length ≤ capacity * 64 → ∃ selected,
        { s with lastAdmittedJob := last }.selectRuns prepared now capacity = .ok selected ∧
        selected.Pairwise (Turns.Before RunRow.jobId last (s.waitingRuns now)) ∧
        (∀ r ∈ selected, r ∈ s.fittingRuns prepared (s.waitingRuns now)) ∧
        selected.length = min capacity (s.fittingRuns prepared (s.waitingRuns now)).length) ∧
    ((∀ last capacity, (s.waitingRuns now).length ≤ capacity * 64 →
      { s with lastAdmittedJob := last }.selectRuns prepared now capacity
        = .ok ((roundRobin ((s.fittingRuns prepared (s.waitingRuns now)).map candidate) last
            capacity).map Candidate.value)) ↔
      Readable prepared (s.waitingRuns now) ∧ Turns.RoundsKept RunRow.jobId (s.waitingRuns now)
        (Turns.fits (s.verdict prepared (s.waitingRuns now)))) := by
  have hnodup : (s.waitingRuns now).Nodup := (s.nodup_waitingRuns now).of_map _
  refine ⟨?_, ?_, ?_, ?_⟩
  · intro lifetime guard admitted s' h
    rcases admitRuns_selection h with ⟨hcapacity, rfl, -⟩ | ⟨sel, -, -, hsel, rfl, -⟩
    · rw [hcapacity]
      unfold selectRuns eligibleRuns
      rw [Nat.zero_mul, List.take_zero]
      rfl
    · unfold selectRuns
      dsimp only
      rw [hsel, List.map_map]
      exact congrArg Except.ok (List.map_id sel.selected).symm
  · intro hreadable last capacity hwindow
    refine ⟨_, s.selectRuns_eq prepared now hreadable last hwindow, ?_, ?_, ?_⟩
    · exact ((Turns.pairwise_turns last _).filter _).sublist (List.take_sublist _ _)
    · intro r hr
      obtain ⟨hturn, hfits⟩ := List.mem_filter.mp (List.mem_of_mem_take hr)
      exact List.mem_filter.mpr ⟨(Turns.mem_turns_iff (Nat.le_succ _)).mp hturn, hfits⟩
    · rw [List.length_take]
      congr 1
      exact ((Turns.perm_turns hnodup last (Nat.le_succ _)).filter _).length_eq
  · intro hfair
    -- a capacity that cannot be used up reads everything and cuts nothing off
    have hlarge : ∀ last, { s with lastAdmittedJob := last }.selectRuns prepared now
        ((s.waitingRuns now).length + 1) = .ok ((roundRobin ((s.fittingRuns prepared
          (s.waitingRuns now)).map candidate) last ((s.waitingRuns now).length + 1)).map
            Candidate.value) := fun last => hfair last _ (by omega)
    have hle : (s.fittingRuns prepared (s.waitingRuns now)).length ≤ (s.waitingRuns now).length :=
      List.length_filter_le _ _
    have hfitting : ∀ last, (Turns.turns (Turns.rotation last ((s.fittingRuns prepared
        (s.waitingRuns now)).map RunRow.jobId)) (Turns.queue RunRow.jobId (s.fittingRuns prepared
          (s.waitingRuns now))) ((s.fittingRuns prepared (s.waitingRuns now)).length + 1)).length
        = (s.fittingRuns prepared (s.waitingRuns now)).length :=
      fun last => (Turns.perm_turns (hnodup.filter _) last (Nat.le_succ _)).length_eq
    have hreadable : Readable prepared (s.waitingRuns now) := by
      refine s.readable_of_selectRuns prepared now (by omega) (hlarge none) ?_
      rw [roundRobin_candidates, List.length_take, hfitting]
      omega
    refine ⟨hreadable, (Turns.turns_filter_eq_iff hnodup _ (Nat.le_succ _) (Nat.le_succ _)).mp ?_⟩
    intro last
    have hequal := Except.ok.inj
      ((s.selectRuns_eq prepared now hreadable last (by omega)).symm.trans (hlarge last))
    rw [roundRobin_candidates] at hequal
    have hturns : ((s.allTurns now last).filter (Turns.fits (s.verdict prepared
        (s.waitingRuns now)))).length = (s.fittingRuns prepared (s.waitingRuns now)).length :=
      ((Turns.perm_turns hnodup last (Nat.le_succ _)).filter _).length_eq
    rw [List.take_of_length_le (by omega),
      List.take_of_length_le (by rw [hfitting]; omega)] at hequal
    exact hequal
  · rintro ⟨hreadable, hkept⟩ last capacity hwindow
    rw [s.selectRuns_eq prepared now hreadable last hwindow, roundRobin_candidates]
    have hturns := (Turns.turns_filter_eq_iff hnodup _ (Nat.le_succ _) (Nat.le_succ _)).mpr hkept
      last
    exact congrArg (fun l => Except.ok (l.take capacity)) hturns

end Selection

/-! ## A turn used up -/

def oneAtATime : JobDefinition :=
  ⟨.every 3600000000 0, { ExecutionPolicy.default with overlap := .skip, retries := 1 }, .retain,
    "true"⟩

def threeAtOnce : JobDefinition :=
  ⟨.every 3600000000 0,
    { ExecutionPolicy.default with overlap := .allow, perJobConcurrency := 3 }, .retain, "true"⟩

/-- A run of the first job waits for its retry at time 10 under the old limit, while another one is
live and a third one waits under the new limit; two runs of the second job wait. -/
def limitRaised : List Op :=
  [.createJob ⟨1, "raised", none, "[]", true, .job oneAtATime, 0, 0⟩,
   .createJob ⟨2, "other", none, "[]", true, .job threeAtOnce, 0, 0⟩,
   .beginLifetime 3 0,
   .enqueueManual 1 1 (.job oneAtATime) 11 0,
   .admitRuns (fun _ => some (.job oneAtATime)) 3 0 8,
   .markAttemptRunning 11 1 0 none,
   .completeAttempt ⟨11, 1, 0, 0, .failed, some 1, none, none, "exit", some ⟨10, "known_failure"⟩⟩,
   .updateJob ⟨1, 1, "raised", none, "[]", true, .job threeAtOnce, 0, 0⟩,
   .enqueueManual 1 2 (.job threeAtOnce) 10 5,
   .admitRuns (fun _ => some (.job threeAtOnce)) 3 5 8,
   .enqueueManual 1 2 (.job threeAtOnce) 12 20,
   .enqueueManual 2 1 (.job threeAtOnce) 20 20,
   .enqueueManual 2 1 (.job threeAtOnce) 21 20]

/-- **A run that waits under an old limit uses up the turn of its job**: with room for two, both
runs of the other job are admitted, where the selector would take one of each. -/
theorem dropped_run_uses_turn :
    ∃ s, Reachable anyOp s ∧
      (s.selectRuns (s.prepare 20 2) 20 2).map (List.map RunRow.id) = .ok [20, 21] ∧
      (roundRobin ((s.fittingRuns (s.prepare 20 2) (s.waitingRuns 20)).map candidate)
        s.lastAdmittedJob 2).map (fun c => c.value.id) = [20, 12] := by
  exact exists_reachable anyOp limitRaised _ (fun _ _ _ => trivial) (by decide +kernel)

end Store

end Locron
