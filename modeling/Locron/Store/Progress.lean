import Locron.Store.StateChanges

set_option autoImplicit false

/-! # How a run gets its next attempt

Every step of a run is one of four kinds (`RunStep.progress`): the run is deleted, a pending run
starts its next attempt, an active attempt is completed and will be retried, or no attempt is added
and the run does not become pending.
-/

namespace Locron

/-- The attempts are the same ones, and only active ones have changed. -/
def AttemptsContinue (attempts attempts' : List AttemptRow) : Prop :=
  ∃ f : AttemptRow → AttemptRow, attempts' = attempts.map f ∧
    (∀ a, (f a).number = a.number ∧ (f a).startedAt = a.startedAt) ∧
    ∀ a, a.state.isActive = false → f a = a

namespace AttemptsContinue

variable {attempts attempts' : List AttemptRow}

theorem refl (attempts : List AttemptRow) : AttemptsContinue attempts attempts :=
  ⟨id, by simp, fun _ => ⟨rfl, rfl⟩, fun _ _ => rfl⟩

theorem onActive (id : Uuid) (number : Nat) {f : AttemptRow → AttemptRow}
    (hf : ∀ a, (f a).number = a.number ∧ (f a).startedAt = a.startedAt) :
    AttemptsContinue attempts (onActive id number f attempts) := by
  refine ⟨_, rfl, fun a => ?_, fun a ha => ?_⟩
  · split
    · exact hf a
    · exact ⟨rfl, rfl⟩
  · refine if_neg fun hof => ?_
    rw [AttemptRow.active_of_isActiveOf hof] at ha
    cases ha

theorem length_eq (h : AttemptsContinue attempts attempts') :
    attempts'.length = attempts.length := by
  obtain ⟨f, rfl, -, -⟩ := h
  exact List.length_map f

/-- Where an attempt comes from. -/
theorem origin (h : AttemptsContinue attempts attempts') {a' : AttemptRow} (ha' : a' ∈ attempts') :
    ∃ a ∈ attempts, a'.number = a.number ∧ (a.state.isActive = false → a' = a) := by
  obtain ⟨f, rfl, hf, hinactive⟩ := h
  obtain ⟨a, ha, rfl⟩ := List.mem_map.mp ha'
  exact ⟨a, ha, (hf a).1, hinactive a⟩

/-- Where an attempt goes. -/
theorem next (h : AttemptsContinue attempts attempts') {a : AttemptRow} (ha : a ∈ attempts) :
    ∃ a' ∈ attempts', a'.number = a.number ∧ a'.startedAt = a.startedAt ∧
      (a.state.isActive = false → a' = a) := by
  obtain ⟨f, rfl, hf, hinactive⟩ := h
  exact ⟨f a, List.mem_map.mpr ⟨a, ha, rfl⟩, (hf a).1, (hf a).2, hinactive a⟩

end AttemptsContinue

/-- A row that is pending after some occurrences is the one from before, or a new one. -/
theorem OverlapStep.pending_origin {permits : Permits} {id : Uuid} {v v' : RunView}
    (h : Relation.ReflTransGen (OverlapStep permits id) v v') {r' : RunRow} (hr' : v'.run = some r')
    (hpending : r'.state.isPending = true) : v.attempts = [] ∨ v.run = some r' := by
  cases h.cases_tail with
  | inl heq => exact Or.inr (heq ▸ hr')
  | inr hlast =>
    obtain ⟨v₁, hfirst, hlast⟩ := hlast
    cases hlast with
    | insert r hid hnew hmay => exact Or.inl (OverlapStep.attempts hfirst).symm
    | supersede r now _ =>
      cases hr'
      cases hpending
    | requestReplacement r now hlive =>
      cases hr'
      have hstays : r.state.isPending = true := hpending
      rw [RunState.not_pending_of_live hlive] at hstays
      cases hstays

theorem OverlapStep.snapshot {permits : Permits} {id : Uuid} {v v' : RunView}
    (h : Relation.ReflTransGen (OverlapStep permits id) v v') {r : RunRow} (hr : v.run = some r) :
    ∃ r', v'.run = some r' ∧ r'.snapshot = r.snapshot :=
  OverlapStep.keeps h (fun _ _ _ hsame => hsame) (fun _ _ hsame => hsame) hr rfl

/-- No attempt is added, and a run that is pending was pending before, or is new. -/
structure RunView.StaysOn (v v' : RunView) : Prop where
  attempts : AttemptsContinue v.attempts v'.attempts
  snapshot : ∀ r r', v.run = some r → v'.run = some r' → r'.snapshot = r.snapshot
  pending : ∀ r', v'.run = some r' → r'.state.isPending = true →
    v'.attempts = v.attempts ∧ (v.attempts = [] ∨ v.run = some r')

theorem RunView.StaysOn.of_not_pending {r r' : RunRow} {attempts attempts' : List AttemptRow}
    (hattempts : AttemptsContinue attempts attempts') (hsnapshot : r'.snapshot = r.snapshot)
    (hstate : r'.state.isPending = false) :
    RunView.StaysOn ⟨some r, attempts⟩ ⟨some r', attempts'⟩ := by
  refine ⟨hattempts, ?_, ?_⟩
  · rintro _ _ ⟨⟩ ⟨⟩
    exact hsnapshot
  · rintro _ ⟨⟩ hpending
    rw [hstate] at hpending
    cases hpending

/-- **What a step does with the attempts.** -/
theorem RunStep.progress {permits : Permits} {id : Uuid} {v v' : RunView} (hv : v.Consistent)
    (h : RunStep permits id v v') :
    v'.run = none ∨
    (∃ r lifetime now, v.run = some r ∧ r.state.isPending = true ∧ permits.start r now ∧
      v' = ⟨some { r with state := .starting },
        v.attempts ++ [.start id (nextNumber v.attempts) lifetime now]⟩) ∨
    (∃ r c plan, v.run = some r ∧ HasActive id c.attemptNumber v.attempts ∧ c.retry = some plan ∧
      permits.plan r c ∧ v' = ⟨some (r.retry plan.notBefore c.reason),
        onActive id c.attemptNumber (AttemptRow.complete c) v.attempts⟩) ∨
    v.StaysOn v' := by
  have hclose : ∀ (number : Nat) (state : AttemptState) (now duration : Int)
      (cls message : String) (attempts : List AttemptRow), AttemptsContinue attempts
        (onActive id number (AttemptRow.close state now duration cls message) attempts) :=
    fun number _ _ _ _ _ _ => .onActive id number fun _ => ⟨rfl, rfl⟩
  cases h with
  | keep =>
    refine Or.inr (Or.inr (Or.inr ⟨.refl _, ?_, fun r' hr' _ => ⟨rfl, Or.inr hr'⟩⟩))
    intro r r' hr hr'
    rw [Option.some.inj (hr.symm.trans hr')]
  | overlap h =>
    have heq := OverlapStep.attempts h
    refine Or.inr (Or.inr (Or.inr ⟨heq ▸ .refl _, ?_, ?_⟩))
    · intro r r' hr hr'
      obtain ⟨r₁, hr₁, hsnapshot⟩ := OverlapStep.snapshot h hr
      rw [← Option.some.inj (hr₁.symm.trans hr')]
      exact hsnapshot
    · intro r' hr' hpending
      exact ⟨heq, OverlapStep.pending_origin h hr' hpending⟩
  | start r lifetime now hpending _ hmay =>
    exact Or.inr (Or.inl ⟨r, lifetime, now, rfl, hpending, hmay, rfl⟩)
  | ready r number now executable _ _ _ =>
    refine Or.inr (Or.inr (Or.inr (.of_not_pending ⟨_, rfl, fun a => ?_, fun a ha => ?_⟩ rfl rfl)))
    · split
      · exact ⟨rfl, rfl⟩
      · exact ⟨rfl, rfl⟩
    · refine if_neg fun hof => ?_
      simp only [AttemptRow.isStartingOf, Bool.and_eq_true, decide_eq_true_eq] at hof
      rw [hof.2] at ha
      cases ha
  | cancelBeforeSpawn | quarantine =>
    exact Or.inr (Or.inr (Or.inr (.of_not_pending (hclose ..) rfl rfl)))
  | complete r c _ _ =>
    refine Or.inr (Or.inr (Or.inr (.of_not_pending (.onActive id _ fun _ => ⟨rfl, rfl⟩) rfl ?_)))
    show c.state.runState.isPending = false
    cases c.state <;> rfl
  | retry r c plan _ hactive _ hplan hcompletion =>
    exact Or.inr (Or.inr (Or.inl ⟨r, c, plan, rfl, hactive, hplan, hcompletion, rfl⟩))
  | failCandidate r now _ _ =>
    exact Or.inr (Or.inr (Or.inr (.of_not_pending (.refl _) rfl rfl)))
  | preExecution r number now reason hactive =>
    have hoccupied := RunRow.live_of_occupied ((hv r rfl).occupied_of_active hactive)
    rw [if_pos hoccupied]
    exact Or.inr (Or.inr (Or.inr (.of_not_pending (hclose ..) rfl rfl)))
  | runnerFailure r r' attempts' number now duration reason started hrun hattempts happlied =>
    subst hattempts
    cases hlive' : r.state.isLive with
    | true =>
      rw [hrun, if_pos hlive']
      refine Or.inr (Or.inr (Or.inr (.of_not_pending (hclose ..) rfl ?_)))
      cases started <;> rfl
    | false =>
      -- the failure was recorded before, so the run is finished
      rw [if_neg (by simp [hlive'])] at hrun
      subst hrun
      refine Or.inr (Or.inr (Or.inr (.of_not_pending (hclose ..) rfl ?_)))
      rcases happlied with ⟨hl, -⟩ | ⟨hstate, -⟩
      · rw [hlive'] at hl
        cases hl
      · rw [hstate]
        cases started <;> rfl
  | requestCancellation r now hl =>
    exact Or.inr (Or.inr (Or.inr
      (.of_not_pending (.refl _) rfl (RunState.not_pending_of_live hl))))
  | cancelPending | acknowledge =>
    exact Or.inr (Or.inr (Or.inr (.of_not_pending (.refl _) rfl rfl)))
  | interrupt _ now =>
    refine Or.inr (Or.inr (Or.inr ⟨⟨_, rfl, fun a => ?_, fun a ha => ?_⟩, ?_, ?_⟩))
    · split
      · exact ⟨rfl, rfl⟩
      · exact ⟨rfl, rfl⟩
    · exact if_neg (by simp [ha])
    · intro r r' hr hr'
      obtain ⟨r₁, hr₁, rfl⟩ := Option.map_eq_some_iff.mp hr'
      rw [Option.some.inj (hr.symm.trans hr₁)]
      split
      · rfl
      · rfl
    · -- a pending run has no attempt to interrupt
      intro r' hr' hpending
      obtain ⟨r, hr, rfl⟩ := Option.map_eq_some_iff.mp hr'
      split at hpending
      · cases hpending
      next hstale =>
      have hidle := (hv r hr).idle
        (RunRow.occupied_eq_false_of_not_live (RunRow.not_live_of_pending hpending))
      refine ⟨?_, Or.inr (by rw [if_neg hstale]; exact hr)⟩
      conv_rhs => rw [← List.map_id v.attempts]
      refine List.map_congr_left fun a ha => ?_
      rw [if_neg (by simp [hidle a ha])]
      rfl
  | delete => exact Or.inl rfl

end Locron
