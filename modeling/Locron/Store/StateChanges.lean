import Locron.Store.Quarantine

set_option autoImplicit false

/-! # State changes and the lifecycle tables

The store writes states by its own guards; the tables of legal transitions are never consulted. What
it writes is in the tables up to three kinds of changes: a waiting retry that gives way to a
replacement, a candidate whose predecessor cannot be confirmed dead, and the outcome of an attempt
that was never marked as running.
-/

namespace Locron

/-- The changes of a run that the table lacks. -/
inductive RunRow.OffTable (r r' : RunRow) : Prop
  /-- A waiting retry gave way to a replacement. -/
  | superseded (hstate : r.state = .retryWait) (hstate' : r'.state = .skippedOverlap)
  /-- A candidate failed with its predecessor. -/
  | candidateFailed (hflag : r.replacementCandidate = true) (hstate : r.state.isPending = true)
      (hstate' : r'.state = .failed)
  /-- The attempt ended without having been marked as running. -/
  | neverRan (hstate : r.state = .starting)
      (hstate' : r'.state = .succeeded ∨ r'.state = .timedOut ∨ r'.state = .retryWait)

/-- The state stays, changes by the table, or by one of the known exceptions. -/
def RunRow.ChangesTo (r r' : RunRow) : Prop :=
  r'.state = r.state ∨ r.state.transition r'.state = .ok r'.state ∨ r.OffTable r'

/-- The same for attempts; the exceptions are outcomes of attempts never marked as running. -/
def AttemptRow.ChangesTo (a a' : AttemptRow) : Prop :=
  a'.state = a.state ∨ a.state.transition a'.state = .ok a'.state ∨
    (a.state = .starting ∧ (a'.state = .succeeded ∨ a'.state = .timedOut))

theorem RunState.transition_ok {self next : RunState} (h : self.legal next = true) :
    self.transition next = .ok next := by
  simp [RunState.transition, h]

theorem AttemptState.transition_ok {self next : AttemptState} (h : self.legal next = true) :
    self.transition next = .ok next := by
  simp [AttemptState.transition, h]

namespace RunRow

variable {r r' : RunRow}

theorem ChangesTo.of_legal (h : r.state.legal r'.state = true) : r.ChangesTo r' :=
  Or.inr (Or.inl (RunState.transition_ok h))

theorem ChangesTo.of_pending (h : r.state.isPending = true)
    (h' : r'.state = .starting ∨ r'.state = .cancelled) : r.ChangesTo r' := by
  apply ChangesTo.of_legal
  revert h
  rcases h' with h' | h'
  · rw [h']
    cases r.state <;> simp [RunState.isPending, RunState.legal]
  · rw [h']
    cases r.state <;> simp [RunState.isPending, RunState.legal]

theorem ChangesTo.of_live (h : r.state.isLive = true)
    (h' : r'.state = .failed ∨ r'.state = .cancelled ∨ r'.state = .interruptedUnknown) :
    r.ChangesTo r' := by
  apply ChangesTo.of_legal
  revert h
  rcases h' with h' | h' | h'
  · rw [h']
    cases r.state <;> simp [RunState.isLive, RunState.legal]
  · rw [h']
    cases r.state <;> simp [RunState.isLive, RunState.legal]
  · rw [h']
    cases r.state <;> simp [RunState.isLive, RunState.legal]

/-- The outcome of an attempt: in the table once the run is running. -/
theorem ChangesTo.of_outcome (h : r.state.isLive = true)
    (h' : r'.state = .succeeded ∨ r'.state = .timedOut ∨ r'.state = .retryWait) :
    r.ChangesTo r' := by
  cases hstate : r.state with
  | starting => exact Or.inr (Or.inr (.neverRan hstate h'))
  | running =>
    apply ChangesTo.of_legal
    rcases h' with h' | h' | h' <;> rw [hstate, h'] <;> rfl
  | _ => simp [hstate, RunState.isLive] at h

end RunRow

/-! ## Runs -/

variable {permits : Permits} {id : Uuid} {v v' : RunView}

theorem OverlapStep.state
    (h : Relation.ReflTransGen (OverlapStep permits id) v v') {r : RunRow} (hr : v.run = some r) :
    ∃ r', v'.run = some r' ∧
      (r'.state = r.state ∨ (r.state.isPending = true ∧ r'.state = .skippedOverlap)) := by
  refine OverlapStep.keeps h ?_ (fun _ _ hstate => hstate) hr (Or.inl rfl)
  rintro r₁ now hpending (hsame | ⟨hp, -⟩)
  · exact Or.inr ⟨hsame ▸ hpending, rfl⟩
  · exact Or.inr ⟨hp, rfl⟩

theorem RunStep.run_changes
    (hv : v.Consistent) (h : RunStep permits id v v') {r r' : RunRow} (hr : v.run = some r)
    (hr' : v'.run = some r') : r.ChangesTo r' := by
  have hactive : ∀ {number}, HasActive id number v.attempts → r.state.isLive = true :=
    fun h => RunRow.live_of_occupied ((hv r hr).occupied_of_active h)
  cases h with
  | keep =>
    rw [hr] at hr'
    cases hr'
    exact Or.inl rfl
  | overlap h =>
    obtain ⟨r₁, hr₁, hstate⟩ := OverlapStep.state h hr
    rw [hr'] at hr₁
    cases hr₁
    rcases hstate with hsame | ⟨hpending, hskipped⟩
    · exact Or.inl hsame
    cases hstate : r.state with
    | queued => exact .of_legal (by rw [hstate, hskipped]; rfl)
    | retryWait => exact Or.inr (Or.inr (.superseded hstate hskipped))
    | _ => simp [hstate, RunState.isPending] at hpending
  | start _ _ _ hpending _ =>
    cases hr
    cases hr'
    exact .of_pending hpending (Or.inl rfl)
  | ready _ _ _ _ hstate _ _ =>
    cases hr
    cases hr'
    exact .of_legal (by rw [hstate]; rfl)
  | cancelBeforeSpawn _ _ _ _ hlive _ _ =>
    cases hr
    cases hr'
    exact .of_live hlive (Or.inr (Or.inl rfl))
  | complete _ c hstate ha =>
    have hlive := hactive ha
    cases hr
    cases hr'
    cases hc : c.state with
    | succeeded | timedOut =>
      exact .of_outcome hlive (by simp [RunRow.finish, CompletionState.runState])
    | failed | cancelled => exact .of_live hlive (by simp [RunRow.finish, CompletionState.runState])
    | terminationUnconfirmed => exact absurd hc hstate
  | retry _ c plan _ ha _ =>
    have hlive := hactive ha
    cases hr
    cases hr'
    exact .of_outcome hlive (Or.inr (Or.inr rfl))
  | quarantine _ _ _ _ _ hlive _ _ =>
    cases hr
    cases hr'
    cases hstate : r.state with
    | starting => exact .of_legal (by rw [hstate]; rfl)
    | running => exact Or.inl (by rw [hstate]; rfl)
    | _ => simp [hstate, RunState.isLive] at hlive
  | failCandidate _ _ hflag hpending =>
    cases hr
    cases hr'
    exact Or.inr (Or.inr (.candidateFailed hflag hpending rfl))
  | preExecution _ _ _ _ ha =>
    have hlive := hactive ha
    cases hr
    cases hr'
    rw [if_pos hlive]
    exact .of_live hlive (Or.inl rfl)
  | runnerFailure _ _ _ _ _ _ _ started hrun _ _ =>
    cases hr
    cases hr'
    subst hrun
    split
    · next hlive =>
      apply RunRow.ChangesTo.of_live hlive
      cases started
      · exact Or.inl rfl
      · exact Or.inr (Or.inr rfl)
    · exact Or.inl rfl
  | requestCancellation _ _ _ =>
    cases hr
    cases hr'
    exact Or.inl rfl
  | cancelPending _ _ hpending =>
    cases hr
    cases hr'
    exact .of_pending hpending (Or.inr rfl)
  | acknowledge _ _ hquarantined _ =>
    cases hr
    cases hr'
    exact .of_live (RunRow.live_of_quarantined hquarantined) (Or.inr (Or.inr rfl))
  | interrupt _ now =>
    rw [hr] at hr'
    cases hr'
    dsimp only
    split
    · next hstale =>
      simp only [RunRow.stale, Bool.and_eq_true] at hstale
      exact .of_live hstale.1 (Or.inr (Or.inr rfl))
    · exact Or.inl rfl
  | delete _ _ _ => cases hr'

/-! ## Attempts -/

namespace AttemptRow

variable {a a' : AttemptRow}

theorem ChangesTo.refl (a : AttemptRow) : a.ChangesTo a := Or.inl rfl

theorem ChangesTo.of_active (h : a.state.isActive = true)
    (h' : a'.state = .failed ∨ a'.state = .cancelled ∨ a'.state = .interruptedUnknown) :
    a.ChangesTo a' := by
  refine Or.inr (Or.inl (AttemptState.transition_ok ?_))
  revert h
  rcases h' with h' | h' | h'
  · rw [h']
    cases a.state <;> simp [AttemptState.isActive, AttemptState.legal]
  · rw [h']
    cases a.state <;> simp [AttemptState.isActive, AttemptState.legal]
  · rw [h']
    cases a.state <;> simp [AttemptState.isActive, AttemptState.legal]

/-- The outcome of an attempt: in the table once it is running. -/
theorem ChangesTo.of_outcome (h : a.state.isActive = true)
    (h' : a'.state = .succeeded ∨ a'.state = .timedOut) : a.ChangesTo a' := by
  cases hstate : a.state with
  | starting => exact Or.inr (Or.inr ⟨hstate, h'⟩)
  | running =>
    refine Or.inr (Or.inl (AttemptState.transition_ok ?_))
    rcases h' with h' | h' <;> rw [hstate, h'] <;> rfl
  | _ => simp [hstate, AttemptState.isActive] at h

theorem ChangesTo.complete (c : AttemptCompletion) (h : a.state.isActive = true) :
    a.ChangesTo (a.complete c) := by
  cases hc : c.state with
  | succeeded | timedOut => exact .of_outcome h (by simp [AttemptRow.complete, close, hc,
      CompletionState.attemptState])
  | failed | cancelled | terminationUnconfirmed =>
    exact .of_active h (by simp [AttemptRow.complete, close, hc,
      CompletionState.attemptState])

end AttemptRow

section Attempts

variable {attempts : List AttemptRow} {f : AttemptRow → AttemptRow} {a a' : AttemptRow}

/-- The numbering tells the attempts of a run apart. -/
theorem eq_of_number_eq (h : attempts.map (fun a => a.number) = List.range' 1 attempts.length)
    (ha : a ∈ attempts) (ha' : a' ∈ attempts) (hn : a'.number = a.number) : a' = a := by
  have hnodup : (attempts.map (fun a => a.number)).Nodup := by
    rw [h]
    exact List.nodup_range'
  exact List.inj_on_of_nodup_map hnodup ha' ha hn

theorem changesTo_of_map (h : attempts.map (fun a => a.number) = List.range' 1 attempts.length)
    (hnumber : ∀ a, (f a).number = a.number) (hf : ∀ a ∈ attempts, a.ChangesTo (f a))
    (ha : a ∈ attempts) (ha' : a' ∈ attempts.map f) (hn : a'.number = a.number) :
    a.ChangesTo a' := by
  obtain ⟨a₀, ha₀, rfl⟩ := List.mem_map.mp ha'
  rw [hnumber] at hn
  obtain rfl := eq_of_number_eq h ha ha₀ hn
  exact hf a₀ ha₀

theorem changesTo_of_onActive {number : Nat}
    (h : attempts.map (fun a => a.number) = List.range' 1 attempts.length)
    (hkey : ∀ a, (f a).key = a.key)
    (hf : ∀ a : AttemptRow, a.state.isActive = true → a.ChangesTo (f a))
    (ha : a ∈ attempts) (ha' : a' ∈ onActive id number f attempts) (hn : a'.number = a.number) :
    a.ChangesTo a' := by
  refine changesTo_of_map h ?_ ?_ ha ha' hn
  · intro b
    split
    · exact congrArg Prod.snd (hkey b)
    · rfl
  · intro b _
    split
    · next hof => exact hf b (AttemptRow.active_of_isActiveOf hof)
    · exact .refl b

end Attempts

theorem OverlapStep.attempts
    (h : Relation.ReflTransGen (OverlapStep permits id) v v') : v'.attempts = v.attempts := by
  induction h with
  | refl => rfl
  | tail _ hlast ih =>
    rw [← ih]
    cases hlast <;> rfl

theorem RunStep.attempt_changes
    (howned : v.Owned) (hv : v.Consistent) (h : RunStep permits id v v') {a a' : AttemptRow}
    (ha : a ∈ v.attempts) (ha' : a' ∈ v'.attempts) (hn : a'.number = a.number) :
    a.ChangesTo a' := by
  obtain ⟨r, hr⟩ : ∃ r, v.run = some r := by
    cases hr : v.run with
    | some r => exact ⟨r, rfl⟩
    | none =>
      rw [howned hr] at ha
      cases ha
  have hnumbers := (hv r hr).numbers
  have hsame : v'.attempts = v.attempts → a.ChangesTo a' := by
    intro heq
    rw [heq] at ha'
    rw [eq_of_number_eq hnumbers ha ha' hn]
    exact .refl a
  cases h with
  | keep | failCandidate | requestCancellation | cancelPending | acknowledge => exact hsame rfl
  | overlap h => exact hsame (OverlapStep.attempts h)
  | start _ lifetime now _ _ =>
    rcases List.mem_append.mp ha' with hmem | hmem
    · rw [eq_of_number_eq hnumbers ha hmem hn]
      exact .refl a
    -- the new attempt has a number of its own
    rw [List.mem_singleton.mp hmem] at hn
    have hmem : a.number ∈ List.range' 1 _ := hnumbers ▸ List.mem_map.mpr ⟨a, ha, rfl⟩
    rw [List.mem_range'_1] at hmem
    have hnext := nextNumber_eq hnumbers
    simp only [AttemptRow.start] at hn
    dsimp only at hmem hnext
    omega
  | ready _ _ now executable _ _ _ =>
    refine changesTo_of_map hnumbers ?_ ?_ ha ha' hn
    · intro b
      split
      · rfl
      · rfl
    · intro b _
      split
      · next hof =>
        simp only [AttemptRow.isStartingOf, Bool.and_eq_true, decide_eq_true_eq] at hof
        exact Or.inr (Or.inl (AttemptState.transition_ok (by rw [hof.2]; rfl)))
      · exact .refl b
  | cancelBeforeSpawn _ _ _ _ _ _ _ =>
    exact changesTo_of_onActive hnumbers AttemptRow.key_close
      (fun b hb => .of_active hb (Or.inr (Or.inl rfl))) ha ha' hn
  | complete _ c | retry _ c =>
    exact changesTo_of_onActive hnumbers AttemptRow.key_complete
      (fun b hb => .complete c hb) ha ha' hn
  | quarantine _ _ _ _ _ _ _ _ =>
    exact changesTo_of_onActive hnumbers AttemptRow.key_close
      (fun b hb => .of_active hb (Or.inr (Or.inr rfl))) ha ha' hn
  | preExecution _ _ _ _ _ =>
    exact changesTo_of_onActive hnumbers AttemptRow.key_close
      (fun b hb => .of_active hb (Or.inl rfl)) ha ha' hn
  | runnerFailure _ _ _ _ _ _ _ started _ hattempts _ =>
    subst hattempts
    refine changesTo_of_onActive hnumbers AttemptRow.key_close (fun b hb => ?_) ha ha' hn
    cases started
    · exact .of_active hb (Or.inl rfl)
    · exact .of_active hb (Or.inr (Or.inr rfl))
  | interrupt _ now =>
    refine changesTo_of_map hnumbers ?_ ?_ ha ha' hn
    · intro b
      split
      · rfl
      · rfl
    · intro b _
      split
      · next hactive => exact .of_active hactive (Or.inr (Or.inr rfl))
      · exact .refl b
  | delete _ _ _ => cases ha'

/-! ## Operations -/

namespace Store

/-- **Every change of a state column is in the lifecycle tables, or one of the known exceptions**:
in every run of operations in which no retry gives the mark of a quarantine as its reason. -/
theorem state_changes {s s' : Store} {op : Op} (h : Reachable unmarkedRetries s)
    (happly : s.apply op = .ok s') :
    (∀ r ∈ s.runs.rows, ∀ r' ∈ s'.runs.rows, r'.id = r.id → r.ChangesTo r') ∧
      ∀ a ∈ s.attempts.rows, ∀ a' ∈ s'.attempts.rows, a'.key = a.key → a.ChangesTo a' := by
  have heffect := apply_effect h.owned (permitted_all s op) happly
  constructor
  · intro r hr r' hr' hid
    exact (heffect r.id).run_changes (h.consistent r.id) (Table.find_of_mem hr)
      (Table.find_eq_some.mpr ⟨hr', hid⟩)
  · intro a ha a' ha' hkey
    have hrun : a'.runId = a.runId := congrArg Prod.fst hkey
    exact (heffect a.runId).attempt_changes (h.owned a.runId) (h.consistent a.runId)
      (mem_view_attempts.mpr ⟨ha, rfl⟩) (mem_view_attempts.mpr ⟨ha', hrun⟩)
      (congrArg Prod.snd hkey)

/-- The waiting replacement goes from queued to failed, which the table does not have. -/
theorem candidate_fails_off_table :
    ∃ s s' : Store, Reachable anyOp s ∧ s.apply (.completeAttempt unconfirmedCompletion) = .ok s' ∧
      ∃ r ∈ s.runs.rows, ∃ r' ∈ s'.runs.rows, r'.id = r.id ∧ r'.state ≠ r.state ∧
        r.state.transition r'.state = .error ⟨.queued, .failed⟩ := by
  obtain ⟨s, hs, s', happly, hfails⟩ := exists_reachable anyOp
    (unconfirmedPredecessor false)
    (fun s => ∃ s', s.apply (.completeAttempt unconfirmedCompletion) = .ok s' ∧
      ∃ r ∈ s.runs.rows, ∃ r' ∈ s'.runs.rows, r'.id = r.id ∧ r'.state ≠ r.state ∧
        r.state.transition r'.state = .error ⟨.queued, .failed⟩)
    (fun _ _ _ => trivial) (by decide +kernel)
  exact ⟨s, s', hs, happly, hfails⟩

/-- The same run meets the condition: the change is one of the exceptions. -/
theorem state_changes_unconfirmed :
    ∃ s s' : Store, Reachable unmarkedRetries s ∧ s.apply (.completeAttempt unconfirmedCompletion)
      = .ok s' ∧ ∀ r ∈ s.runs.rows, ∀ r' ∈ s'.runs.rows, r'.id = r.id → r.ChangesTo r' := by
  obtain ⟨s, hs, s', happly, -⟩ := exists_reachable unmarkedRetries
    (unconfirmedPredecessor false)
    (fun s => ∃ s', s.apply (.completeAttempt unconfirmedCompletion) = .ok s' ∧ True)
    (by simp [unconfirmedPredecessor, unmarkedRetries]) (by decide +kernel)
  exact ⟨s, s', hs, happly, (state_changes hs happly).1⟩

end Store

end Locron
