import Locron.Store.OutputEffect

set_option autoImplicit false

/-! # Active attempts

An attempt is active from its admission until a completion closes it. Only admission makes an
attempt active (`active_of_apply`); the operations that close one do so whenever they succeed, and
they succeed, up to errors of the database, as long as the attempt is active and its artifact is
open.
-/

namespace Locron

/-- Everything but starts. -/
def noStarts : Permits := { Permits.all with start := fun _ _ => False }

section Steps

variable {id : Uuid} {number : Nat} {attempts : List AttemptRow} {f : AttemptRow → AttemptRow}

/-- An attempt that is active after the active one of some number was closed was active before. -/
theorem mem_of_mem_onActive (hf : ∀ a, (f a).state.isActive = false) {a : AttemptRow}
    (ha : a ∈ onActive id number f attempts) (hactive : a.state.isActive = true) :
    a ∈ attempts := by
  obtain ⟨b, hb, rfl⟩ := List.mem_map.mp ha
  split at hactive
  · rw [hf b] at hactive
    cases hactive
  next hof =>
  rw [if_neg hof]
  exact hb

theorem AttemptRow.not_active_complete (c : AttemptCompletion) (a : AttemptRow) :
    (a.complete c).state.isActive = false := by
  show c.state.attemptState.isActive = false
  cases c.state <;> rfl

/-- **Without a start no attempt becomes active.** -/
theorem RunStep.active_origin {v v' : RunView} (h : RunStep noStarts id v v') {a' : AttemptRow}
    (ha' : a' ∈ v'.attempts) (hactive : a'.state.isActive = true) :
    ∃ a ∈ v.attempts, a.key = a'.key ∧ a.state.isActive = true := by
  have hsame : a' ∈ v.attempts → ∃ a ∈ v.attempts, a.key = a'.key ∧ a.state.isActive = true :=
    fun hmem => ⟨a', hmem, rfl, hactive⟩
  cases h with
  | keep | failCandidate | requestCancellation | cancelPending | acknowledge => exact hsame ha'
  | overlap h =>
    rw [OverlapStep.attempts h] at ha'
    exact hsame ha'
  | start _ _ _ _ _ hmay => exact hmay.elim
  | ready _ number now executable _ _ _ =>
    obtain ⟨a, ha, rfl⟩ := List.mem_map.mp ha'
    split
    · next hof =>
      simp only [AttemptRow.isStartingOf, Bool.and_eq_true, decide_eq_true_eq] at hof
      exact ⟨a, ha, rfl, by rw [hof.2]; rfl⟩
    next hof =>
    rw [if_neg hof] at hactive
    exact ⟨a, ha, rfl, hactive⟩
  | cancelBeforeSpawn | quarantine | preExecution =>
    exact hsame (mem_of_mem_onActive (fun _ => rfl) ha' hactive)
  | complete _ c | retry _ c =>
    exact hsame (mem_of_mem_onActive (AttemptRow.not_active_complete c) ha' hactive)
  | runnerFailure _ _ _ _ _ _ _ started _ hattempts _ =>
    subst hattempts
    refine hsame (mem_of_mem_onActive (fun a => ?_) ha' hactive)
    cases started <;> rfl
  | interrupt _ now =>
    -- an interrupted attempt is not active, and the others were not either
    obtain ⟨a, ha, rfl⟩ := List.mem_map.mp ha'
    split at hactive
    · cases hactive
    · next hof => exact absurd hactive hof
  | delete => cases ha'

end Steps

namespace Store

/-- The attempt exists and is not completed. -/
def attemptActive (s : Store) (key : Uuid × Nat) : Bool :=
  (s.attempts.find key).any (fun a => a.state.isActive)

section Activity

variable {s s' : Store} {run : Uuid} {number : Nat} {key : Uuid × Nat}

theorem attemptActive_iff :
    s.attemptActive key = true ↔ ∃ a ∈ (s.view key.1).attempts, a.key = key ∧
      a.state.isActive = true := by
  unfold attemptActive
  rw [Option.any_eq_true]
  constructor
  · rintro ⟨a, ha, hactive⟩
    have hkey : a.key = key := Table.key_of_find ha
    have hmem : a ∈ (s.view key.1).attempts :=
      List.mem_filter.mpr ⟨Table.mem_of_find ha, by simp [← hkey, AttemptRow.key]⟩
    exact ⟨a, hmem, hkey, hactive⟩
  · rintro ⟨a, ha, hkey, hactive⟩
    exact ⟨a, hkey ▸ Table.find_of_mem (List.mem_filter.mp ha).1, hactive⟩

theorem hasActive_of_attemptActive (h : s.attemptActive key = true) :
    HasActive key.1 key.2 (s.view key.1).attempts := by
  obtain ⟨a, ha, hkey, hactive⟩ := attemptActive_iff.mp h
  refine ⟨a, ha, ?_⟩
  have hrun : a.runId = key.1 := congrArg Prod.fst hkey
  have hnumber : a.number = key.2 := congrArg Prod.snd hkey
  simp [AttemptRow.isActiveOf, hrun, hnumber, hactive]

theorem permitted_noStarts {op : Op}
    (hop : ∀ prepared lifetime now guard, op ≠ .admitRuns prepared lifetime now guard) :
    Permitted noStarts s op :=
  permitted_of (fun _ _ _ _ => trivial)
    (fun _ _ => ⟨fun _ _ _ => trivial, fun _ _ _ => trivial, fun _ _ _ => trivial⟩)
    (fun _ _ _ _ _ => trivial) (fun _ _ _ _ => trivial)
    (fun prepared lifetime now guard heq => absurd heq (hop prepared lifetime now guard))

/-- **Only admission makes attempts active.** -/
theorem active_of_apply {op : Op} (howned : s.Owned) (h : s.apply op = .ok s')
    (hop : ∀ prepared lifetime now guard, op ≠ .admitRuns prepared lifetime now guard)
    (hactive : s'.attemptActive key = true) : s.attemptActive key = true := by
  have hstep := apply_effect howned (permitted_noStarts hop) h key.1
  obtain ⟨a', ha', hkey, hactive'⟩ := attemptActive_iff.mp hactive
  obtain ⟨a, ha, hsame, hbefore⟩ := hstep.active_origin ha' hactive'
  exact attemptActive_iff.mpr ⟨a, ha, hsame.trans hkey, hbefore⟩

theorem live_of_attemptActive (hreachable : Reachable unmarkedRetries s)
    (h : s.attemptActive key = true) :
    ∃ r, s.runs.find key.1 = some r ∧ r.state.isLive = true := by
  have hhas := hasActive_of_attemptActive h
  cases hr : s.runs.find key.1 with
  | none =>
    have hnil : (s.view key.1).attempts = [] := hreachable.owned key.1 hr
    obtain ⟨a, ha, -⟩ := hhas
    rw [hnil] at ha
    cases ha
  | some r =>
    have hconsistent := hreachable.consistent key.1 r hr
    exact ⟨r, rfl, RunRow.live_of_occupied (hconsistent.occupied_of_active hhas)⟩

/-! ## Counting the rows of an attempt -/

theorem count_active (h : s.attemptActive (run, number) = true) :
    s.attempts.count (AttemptRow.isActiveOf run number) = 1 := by
  unfold attemptActive at h
  rw [Option.any_eq_true] at h
  obtain ⟨a, ha, hactive⟩ := h
  rw [← Table.count_key s.attempts (p := fun a => a.state.isActive) ha hactive]
  congr 1
  funext a
  simp [AttemptRow.isActiveOf, AttemptRow.key, Bool.decide_and]

variable {o : OutputRow}

theorem count_isOf {states : List OutputState}
    (ho : s.outputs.find (run, number) = some o) (hstate : o.state ∈ states) :
    s.outputs.count (OutputRow.isOf run number states) = 1 := by
  rw [← Table.count_key s.outputs (p := fun o => states.contains o.state) ho
    (by simpa using hstate)]
  congr 1
  funext o
  simp [OutputRow.isOf, OutputRow.key, Bool.decide_and]

theorem not_active_of_closed (f : AttemptRow → AttemptRow) (hf : ∀ a, (f a).key = a.key)
    (h : s'.attempts = s.attempts.update (AttemptRow.isActiveOf run number) f hf)
    (hclosed : ∀ a, (f a).state.isActive = false) : s'.attemptActive (run, number) = false := by
  rw [attemptActive, h, Table.find_update, Option.any_map]
  cases ha : s.attempts.find (run, number) with
  | none => rfl
  | some a =>
    have hkey : a.key = (run, number) := Table.key_of_find ha
    have hrun : a.runId = run := congrArg Prod.fst hkey
    have hnumber : a.number = number := congrArg Prod.snd hkey
    cases hactive : a.state.isActive with
    | true =>
      have hof : AttemptRow.isActiveOf run number a = true := by
        simp [AttemptRow.isActiveOf, hrun, hnumber, hactive]
      rw [Option.any_some, if_pos hof]
      exact hclosed a
    | false => simp [AttemptRow.isActiveOf, hactive]

/-! ## Operations that close an attempt -/

variable {now : Int}

theorem cancelBeforeSpawn_closes {r : RunRow} {source : String}
    (h : s.cancelBeforeSpawn r number now source = .ok s') :
    s'.attemptActive (r.id, number) = false := by
  unfold cancelBeforeSpawn at h
  obtain ⟨-, h⟩ := Except.guard_eq_ok.mp h
  refine not_active_of_closed (s := s) (AttemptRow.close .cancelled now 0 "cancelled"
    (if source = "replacement" then "replacement requested before spawn"
      else "cancelled by user before spawn")) AttemptRow.key_close ?_ (fun _ => rfl)
  rw [← Except.ok.inj h]
  exact (sameRuns_softRemove ..).attempts

/-- A start that is refused has closed the attempt; one that is granted leaves the artifacts
alone. -/
theorem markAttemptRunning_ok {executable : Option String} {decision : StartDecision}
    (h : s.markAttemptRunning run number now executable = .ok (decision, s')) :
    (decision = .ready ∧ s'.outputs = s.outputs) ∨
      (decision = .cancelledBeforeSpawn ∧ s'.attemptActive (run, number) = false) := by
  unfold markAttemptRunning at h
  split at h
  · cases h
  next r hr =>
  have hid : r.id = run := Table.key_of_find hr
  obtain ⟨-, h⟩ := Except.guard_eq_ok.mp h
  split at h
  · obtain ⟨s₂, hs₂, heq⟩ := Except.map_eq_ok.mp h
    cases heq
    exact Or.inr ⟨rfl, hid ▸ cancelBeforeSpawn_closes hs₂⟩
  split at h
  · split at h
    · cases h
      exact Or.inl ⟨rfl, rfl⟩
    · cases h
  · obtain ⟨-, h⟩ := Except.guard_eq_ok.mp h
    cases h
    exact Or.inl ⟨rfl, rfl⟩

variable {c : AttemptCompletion}

theorem completeUnconfirmed_closes (h : s.completeUnconfirmed c = .ok s') :
    s'.attemptActive (c.runId, c.attemptNumber) = false := by
  unfold completeUnconfirmed at h
  split at h
  · split at h
    · next hcommitted =>
      cases h
      unfold terminationCompletionCommitted at hcommitted
      split at hcommitted
      · next a r ha hr =>
        simp only [Bool.and_eq_true, decide_eq_true_eq] at hcommitted
        rw [attemptActive, ha, Option.any_some, hcommitted.1.1.1.1]
        rfl
      · cases hcommitted
    · cases h
  · obtain ⟨-, h⟩ := Except.guard_eq_ok.mp h
    dsimp only at h
    split at h
    · cases h
    have heq := Except.ok.inj h
    refine not_active_of_closed (s := s) (AttemptRow.close .interruptedUnknown c.now c.duration
      terminationUnconfirmed c.reason) AttemptRow.key_close ?_ (fun _ => rfl)
    rw [← heq]
    split
    · rfl
    · rfl

theorem completeAttempt_closes (h : s.completeAttempt c = .ok s') :
    s'.attemptActive (c.runId, c.attemptNumber) = false := by
  unfold completeAttempt at h
  split at h
  · obtain ⟨-, h⟩ := Except.guard_eq_ok.mp h
    exact completeUnconfirmed_closes h
  obtain ⟨-, h⟩ := Except.guard_eq_ok.mp h
  split at h
  · split at h
    · next hcommitted =>
      cases h
      unfold completionAlreadyCommitted at hcommitted
      split at hcommitted
      · next a r ha hr =>
        simp only [Bool.and_eq_true, decide_eq_true_eq] at hcommitted
        have hstate : a.state = c.state.attemptState := by tauto
        rw [attemptActive, ha, Option.any_some, hstate]
        cases c.state <;> rfl
      · cases hcommitted
    · cases h
  · obtain ⟨-, h⟩ := Except.guard_eq_ok.mp h
    dsimp only at h
    refine not_active_of_closed (s := s) (AttemptRow.complete c) AttemptRow.key_complete ?_
      (AttemptRow.not_active_complete c)
    split at h
    · cases h
      rfl
    · cases h
      exact (sameRuns_softRemove ..).attempts

theorem completeRunnerFailure_closes {reason : String} {mayHaveStarted : Bool}
    (h : s.completeRunnerFailure run number now reason mayHaveStarted = .ok s') :
    s'.attemptActive (run, number) = false := by
  have hclosed : ∀ duration, ∀ a : AttemptRow, (a.close (runnerFailureStates mayHaveStarted).1 now
      duration (runnerFailureStates mayHaveStarted).2.2 reason).state.isActive = false := by
    intro duration a
    cases mayHaveStarted <;> rfl
  unfold completeRunnerFailure at h
  dsimp only at h
  split at h
  · split at h <;> cases h
  next duration hduration =>
  refine not_active_of_closed (s := s) (AttemptRow.close (runnerFailureStates mayHaveStarted).1 now
    duration (runnerFailureStates mayHaveStarted).2.2 reason) AttemptRow.key_close ?_
    (hclosed duration)
  split at h
  · split at h
    · cases h
    · cases h
      exact (sameRuns_softRemove ..).attempts
  · split at h
    · cases h
      rfl
    · cases h

theorem beginLifetime_none_active {lifetime : Uuid} {stale : Nat}
    (h : s.beginLifetime lifetime now = .ok (stale, s')) (key : Uuid × Nat) :
    s'.attemptActive key = false := by
  by_contra hactive
  obtain ⟨a', ha', -, hactive'⟩ := attemptActive_iff.mp (by simpa using hactive)
  rw [view_beginLifetime h key.1] at ha'
  obtain ⟨a, -, rfl⟩ := List.mem_map.mp ha'
  split at hactive'
  · cases hactive'
  · next hclosed => exact hclosed hactive'

/-! ## Operations on an active attempt -/

theorem completeAttempt_no_conflict {message : String}
    (hactive : s.attemptActive (c.runId, c.attemptNumber) = true)
    (hretry : c.retry.isSome = true → c.state = .failed ∨ c.state = .timedOut) :
    s.completeAttempt c ≠ .error (.conflict message) := by
  have hcount := count_active hactive
  intro h
  unfold completeAttempt at h
  split at h
  · next hstate =>
    have hnone : c.retry.isSome = false := by
      by_contra hsome
      rcases hretry (Bool.eq_true_of_not_eq_false hsome) with heq | heq <;>
        rw [hstate] at heq <;> cases heq
    rw [if_neg (by simp [hnone])] at h
    unfold completeUnconfirmed at h
    rw [if_neg (by simp [hcount])] at h
    split at h
    · cases h
    dsimp only at h
    split at h
    · cases h
    · cases h
  · split at h
    · next hguard =>
      simp only [Bool.and_eq_true, bne_iff_ne, ne_eq] at hguard
      rcases hretry hguard.1.1 with heq | heq
      · exact hguard.1.2 heq
      · exact hguard.2 heq
    · rw [if_neg (by simp [hcount])] at h
      split at h
      · cases h
      · dsimp only at h
        split at h <;> cases h

theorem completeRunnerFailure_succeeds {reason : String} {mayHaveStarted : Bool}
    (hreachable : Reachable unmarkedRetries s) (hactive : s.attemptActive (run, number) = true)
    (ho : s.outputs.find (run, number) = some o) (hopen : o.isOpen = true) :
    ∃ s', s.completeRunnerFailure run number now reason mayHaveStarted = .ok s' := by
  obtain ⟨r, hr, hlive⟩ := live_of_attemptActive hreachable hactive
  have hattempts := count_active hactive
  have houtputs : s.outputs.count (OutputRow.isOf run number [.pending, .active]) = 1 :=
    count_isOf ho (by simpa [OutputRow.isOpen] using hopen)
  have hruns : s.runs.count (fun r => r.id = run && r.state.isLive) = 1 :=
    Table.count_key s.runs (p := fun r => r.state.isLive) hr hlive
  obtain ⟨a, ha⟩ : ∃ a, s.attempts.find (run, number) = some a := by
    unfold attemptActive at hactive
    rw [Option.any_eq_true] at hactive
    obtain ⟨a, ha, -⟩ := hactive
    exact ⟨a, ha⟩
  unfold completeRunnerFailure
  dsimp only
  simp only [ha, houtputs, hattempts, hruns, decide_true, Bool.and_self, if_true]
  split
  · next hnone =>
    have hnone' := hnone
    simp only [applyRunnerFailure, deleteRetryIntents, updateRuns, updateAttempts, updateOutputs,
      Table.find_update, Option.map_eq_none_iff] at hnone'
    rw [hr] at hnone'
    cases hnone'
  · exact ⟨_, rfl⟩

/-- The artifact of an outcome is recorded, unless it is settled otherwise. -/
theorem reconcileOutputFinalized_succeeds {output : OutputRecord}
    (ho : s.outputs.find (output.runId, output.attemptNumber) = some o)
    (hstate : o.isOpen = true ∨ o.records output = true) (hcounts : output.negative = false) :
    ∃ s', s.reconcileOutputFinalized output now = .ok s' := by
  unfold reconcileOutputFinalized
  rw [hcounts]
  dsimp only
  split
  · exact ⟨_, rfl⟩
  next hcount =>
  rcases hstate with hopen | hrecords
  · exact absurd (count_isOf ho (by simpa [OutputRow.isOpen] using hopen)) hcount
  · rw [if_pos (by rw [ho]; simpa using hrecords)]
    exact ⟨s, rfl⟩

/-- The artifact of an outcome is recorded as it was reported. -/
theorem reconcileOutputFinalized_records {output : OutputRecord}
    (h : s.reconcileOutputFinalized output now = .ok s') :
    ∃ o, s'.outputs.find (output.runId, output.attemptNumber) = some o ∧
      o.records output = true := by
  unfold reconcileOutputFinalized at h
  dsimp only at h
  split at h
  · next hcount =>
    obtain ⟨-, h⟩ := Except.guard_eq_ok.mp h
    cases h
    have hpos : 0 < s.outputs.rows.countP
        (OutputRow.isOf output.runId output.attemptNumber [.pending, .active]) := by
      unfold Table.count at hcount
      omega
    obtain ⟨o, ho, hof⟩ := List.countP_pos_iff.mp hpos
    have hkey : o.key = (output.runId, output.attemptNumber) := by
      simp only [OutputRow.isOf, Bool.and_eq_true, decide_eq_true_eq] at hof
      exact Prod.ext hof.1.1 hof.1.2
    refine ⟨o.finalize output now, ?_, by simp [OutputRow.records, OutputRow.finalize]⟩
    rw [updateOutputs, Table.find_update, ← hkey, Table.find_of_mem ho, Option.map_some, if_pos hof]
  · split at h
    · next hrecords =>
      cases h
      exact (Option.any_eq_true _ _).mp hrecords
    · cases h

end Activity

/-! ## What admission starts -/

/-- The attempts of the list are in `starting`, each with a pending artifact and its run. -/
structure ReadyFor (s : Store) (lifetime : Uuid) (now : Int) (batch : List (RunRow × Nat)) :
    Prop where
  distinct : (batch.map (fun x => (x.1.id, x.2))).Nodup
  attempt : ∀ x ∈ batch,
    s.attempts.find (x.1.id, x.2) = some (.start x.1.id x.2 lifetime now)
  output : ∀ x ∈ batch, s.outputs.find (x.1.id, x.2) = some (.pending x.1.id x.2)
  run : ∀ x ∈ batch, (s.runs.find x.1.id).isSome = true

section

variable {s s' : Store} {lifetime : Uuid} {now : Int}

variable {batch : List (RunRow × Nat)}

theorem ReadyFor.active (h : s.ReadyFor lifetime now batch)
    {x : RunRow × Nat} (hx : x ∈ batch) : s.attemptActive (x.1.id, x.2) = true := by
  rw [attemptActive, h.attempt x hx]
  rfl

/-- One attempt and its artifact are new; all other rows of both tables stay. -/
theorem startAttempt_tables {run job : Uuid} {number : Nat}
    (h : s.startAttempt lifetime now run job number = .ok s') :
    (∀ key, s'.attempts.find key
        = if (run, number) = key then some (.start run number lifetime now)
          else s.attempts.find key) ∧
      (∀ key, s'.outputs.find key
        = if (run, number) = key then some (.pending run number) else s.outputs.find key) ∧
      ∀ id, (s'.runs.find id).isSome = (s.runs.find id).isSome := by
  unfold startAttempt at h
  dsimp only at h
  obtain ⟨-, h⟩ := Except.guard_eq_ok.mp h
  split at h
  · next attempts outputs hattempts houtputs =>
    cases h
    refine ⟨Table.find_insert hattempts, Table.find_insert houtputs, ?_⟩
    intro id
    simp only [updateRuns, Table.find_update, Option.isSome_map]
  · cases h

/-- A second entry of the same key would find the row of the first. -/
theorem startAttempts_not_again {s₁ : Store} {run job : Uuid} {number : Nat}
    {rest : List (RunRow × Nat)} (hstart : s.startAttempt lifetime now run job number = .ok s₁)
    (h : s₁.startAttempts lifetime now rest = .ok s') :
    (run, number) ∉ rest.map (fun x => (x.1.id, x.2)) := by
  intro hmem
  obtain ⟨x, hx, hkey⟩ := List.mem_map.mp hmem
  have hnone := startAttempts_fresh h x hx
  rw [(startAttempt_tables hstart).1, if_pos hkey.symm] at hnone
  cases hnone

theorem startAttempts_tables (h : s.startAttempts lifetime now batch = .ok s') :
    (∀ x ∈ batch, s'.attempts.find (x.1.id, x.2) = some (.start x.1.id x.2 lifetime now) ∧
        s'.outputs.find (x.1.id, x.2) = some (.pending x.1.id x.2)) ∧
      (∀ key, key ∉ batch.map (fun x => (x.1.id, x.2)) →
        s'.attempts.find key = s.attempts.find key ∧ s'.outputs.find key = s.outputs.find key) ∧
      ∀ id, (s'.runs.find id).isSome = (s.runs.find id).isSome := by
  induction batch generalizing s with
  | nil =>
    cases h
    simp
  | cons x rest ih =>
    obtain ⟨row, number⟩ := x
    unfold startAttempts at h
    split at h
    · cases h
    next s₁ hstart =>
    obtain ⟨hattempts, houtputs, hruns⟩ := startAttempt_tables hstart
    obtain ⟨hstarted, hothers, hruns'⟩ := ih h
    have hnot := startAttempts_not_again hstart h
    refine ⟨?_, ?_, fun id => (hruns' id).trans (hruns id)⟩
    · intro x hx
      rcases List.mem_cons.mp hx with rfl | hx
      · obtain ⟨hattempt, houtput⟩ := hothers _ hnot
        rw [hattempt, houtput, hattempts, houtputs, if_pos rfl, if_pos rfl]
        exact ⟨rfl, rfl⟩
      · exact hstarted x hx
    · intro key hkey
      simp only [List.map_cons, List.mem_cons, not_or] at hkey
      obtain ⟨hattempt, houtput⟩ := hothers key hkey.2
      rw [hattempt, houtput, hattempts, houtputs, if_neg (Ne.symm hkey.1),
        if_neg (Ne.symm hkey.1)]
      exact ⟨rfl, rfl⟩

theorem startAttempts_distinct (h : s.startAttempts lifetime now batch = .ok s') :
    (batch.map (fun x => (x.1.id, x.2))).Nodup := by
  induction batch generalizing s with
  | nil => exact List.nodup_nil
  | cons x rest ih =>
    obtain ⟨row, number⟩ := x
    unfold startAttempts at h
    split at h
    · cases h
    · next s₁ hstart =>
      exact List.nodup_cons.mpr ⟨startAttempts_not_again hstart h, ih h⟩

theorem admitRuns_ready {prepared : Uuid → Option Snapshot} {guard : Nat}
    (h : s.admitRuns prepared lifetime now guard = .ok (batch, s')) :
    s'.ReadyFor lifetime now batch ∧
      (∀ x ∈ batch, s.attempts.find (x.1.id, x.2) = none) ∧
      ∀ key, key ∉ batch.map (fun x => (x.1.id, x.2)) →
        s'.attempts.find key = s.attempts.find key ∧ s'.outputs.find key = s.outputs.find key := by
  rcases admitRuns_ok h with ⟨rfl, rfl⟩ | ⟨selected, heligible, -, rfl, hstart⟩
  · exact ⟨⟨List.nodup_nil, by simp, by simp, by simp⟩, by simp, fun _ _ => ⟨rfl, rfl⟩⟩
  obtain ⟨hstarted, hothers, hruns⟩ := startAttempts_tables hstart
  refine ⟨⟨startAttempts_distinct hstart, fun x hx => (hstarted x hx).1,
    fun x hx => (hstarted x hx).2, ?_⟩, startAttempts_fresh hstart, hothers⟩
  intro x hx
  obtain ⟨r, hr, rfl⟩ := List.mem_map.mp hx
  rw [hruns, Table.find_of_mem (heligible r hr).1]
  rfl

end

end Store

end Locron
