import Locron.Store.QueueEffect

set_option autoImplicit false

/-! # Consistency of runs and attempts

Completions write the run row without a look at its state: they rely on the invariant that a run has
an active attempt exactly while it is starting or running outside of quarantine. The invariant has
one gap. The mark of a quarantine is the reason column, and a retry writes its caller's reason
there; a retry that gives the mark as its reason makes the next attempt of the run look quarantined.
-/

namespace Locron

/-! ## The invariant of a run -/

/-- Starting or running, and not in quarantine. -/
def RunRow.occupied (r : RunRow) : Bool := r.state.isLive && !r.quarantined

def NoneActive (attempts : List AttemptRow) : Prop := ∀ a ∈ attempts, a.state.isActive = false

def LastActive (attempts : List AttemptRow) : Prop :=
  ∃ front last, attempts = front ++ [last] ∧ last.state.isActive = true ∧ NoneActive front

structure RunRow.Consistent (r : RunRow) (attempts : List AttemptRow) : Prop where
  numbers : attempts.map (fun a => a.number) = List.range' 1 attempts.length
  occupied : r.occupied = true → LastActive attempts
  idle : r.occupied = false → NoneActive attempts
  finished : r.finishedAt.isSome = r.state.isTerminal
  /-- Before the process is spawned the reason is no quarantine mark. -/
  unmarked : r.state.isPending = true ∨ r.state = .starting →
    r.reason ≠ some terminationUnconfirmed
  /-- A recorded runner failure has finished the run. -/
  failure : ∀ a ∈ attempts, ∀ mayHaveStarted,
    a.resultClass = some (Store.runnerFailureStates mayHaveStarted).2.2 → r.state.isTerminal = true

def RunView.Consistent (v : RunView) : Prop := ∀ r, v.run = some r → r.Consistent v.attempts

theorem RunState.not_pending_of_live {x : RunState} (h : x.isLive = true) :
    x.isPending = false := by
  revert h
  cases x <;> simp [RunState.isLive, RunState.isPending]

namespace RunRow

variable {r : RunRow}

theorem occupied_eq_false_of_not_live (h : r.state.isLive = false) : r.occupied = false := by
  simp [occupied, h]

theorem not_live_of_terminal (h : r.state.isTerminal = true) : r.state.isLive = false := by
  revert h
  cases r.state <;> simp [RunState.isTerminal, RunState.isLive]

theorem not_live_of_pending (h : r.state.isPending = true) : r.state.isLive = false := by
  revert h
  cases r.state <;> simp [RunState.isPending, RunState.isLive]

theorem not_terminal_of_pending (h : r.state.isPending = true) : r.state.isTerminal = false := by
  revert h
  cases r.state <;> simp [RunState.isPending, RunState.isTerminal]

theorem live_of_occupied (h : r.occupied = true) : r.state.isLive = true := by
  simp only [occupied, Bool.and_eq_true] at h
  exact h.1

theorem not_terminal_of_live (h : r.state.isLive = true) : r.state.isTerminal = false := by
  revert h
  cases r.state <;> simp [RunState.isTerminal, RunState.isLive]

theorem occupied_eq_false_of_quarantined (h : r.quarantined = true) : r.occupied = false := by
  simp [occupied, h]

theorem live_of_quarantined (h : r.quarantined = true) : r.state.isLive = true := by
  simp only [quarantined, Bool.and_eq_true, decide_eq_true_eq] at h
  rw [h.1]
  rfl

end RunRow

/-! ## Lists of attempts -/

section Attempts

variable {id : Uuid} {number : Nat} {f : AttemptRow → AttemptRow} {attempts : List AttemptRow}

theorem AttemptRow.active_of_isActiveOf {a : AttemptRow} (h : a.isActiveOf id number = true) :
    a.state.isActive = true := by
  simp only [AttemptRow.isActiveOf, Bool.and_eq_true] at h
  exact h.2

theorem not_noneActive (h : HasActive id number attempts) : ¬ NoneActive attempts := by
  intro hnone
  obtain ⟨a, ha, hactive⟩ := h
  have := hnone a ha
  rw [AttemptRow.active_of_isActiveOf hactive] at this
  cases this

theorem onActive_of_not_hasActive (h : ¬ HasActive id number attempts) :
    onActive id number f attempts = attempts := by
  conv_rhs => rw [← List.map_id attempts]
  apply List.map_congr_left
  intro a ha
  rw [if_neg (fun hof => h ⟨a, ha, hof⟩)]
  rfl

theorem noneActive_onActive (hlast : LastActive attempts) (hactive : HasActive id number attempts)
    (hf : ∀ a, (f a).state.isActive = false) : NoneActive (onActive id number f attempts) := by
  obtain ⟨front, last, rfl, -, hfront⟩ := hlast
  obtain ⟨a, ha, hof⟩ := hactive
  have hlastOf : last.isActiveOf id number = true := by
    rcases List.mem_append.mp ha with hmem | hmem
    · have := hfront a hmem
      rw [AttemptRow.active_of_isActiveOf hof] at this
      cases this
    · rw [← List.mem_singleton.mp hmem]
      exact hof
  intro b hb
  obtain ⟨b₀, hb₀, rfl⟩ := List.mem_map.mp hb
  split
  · exact hf b₀
  next hnot =>
  rcases List.mem_append.mp hb₀ with hmem | hmem
  · exact hfront b₀ hmem
  · rw [List.mem_singleton.mp hmem] at hnot
    exact absurd hlastOf hnot

theorem LastActive.map (h : LastActive attempts)
    (hf : ∀ a ∈ attempts, (f a).state.isActive = a.state.isActive) :
    LastActive (attempts.map f) := by
  obtain ⟨front, last, rfl, hlast, hfront⟩ := h
  refine ⟨front.map f, f last, by simp, ?_, ?_⟩
  · rw [hf last (by simp)]
    exact hlast
  · intro b hb
    obtain ⟨a, ha, rfl⟩ := List.mem_map.mp hb
    rw [hf a (by simp [ha])]
    exact hfront a ha

theorem numbers_map (h : attempts.map (fun a => a.number) = List.range' 1 attempts.length)
    (hf : ∀ a, (f a).number = a.number) :
    (attempts.map f).map (fun a => a.number) = List.range' 1 (attempts.map f).length := by
  rw [List.length_map, ← h, List.map_map]
  apply List.map_congr_left
  intro a _
  exact hf a

theorem numbers_onActive (h : attempts.map (fun a => a.number) = List.range' 1 attempts.length)
    (hf : ∀ a, (f a).key = a.key) :
    (onActive id number f attempts).map (fun a => a.number)
      = List.range' 1 (onActive id number f attempts).length := by
  apply numbers_map h
  intro a
  split
  · exact congrArg Prod.snd (hf a)
  · rfl

theorem foldl_max_range' (n : Nat) : (List.range' 1 n).foldl max 0 = n := by
  induction n with
  | zero => rfl
  | succ n ih =>
    rw [List.range'_concat, List.foldl_append, ih]
    simp only [List.foldl_cons, List.foldl_nil, Nat.one_mul]
    omega

theorem number_le_length (h : attempts.map (fun a => a.number) = List.range' 1 attempts.length)
    {a : AttemptRow} (ha : a ∈ attempts) : 1 ≤ a.number ∧ a.number ≤ attempts.length := by
  have hmem : a.number ∈ List.range' 1 attempts.length := by
    rw [← h]
    exact List.mem_map.mpr ⟨a, ha, rfl⟩
  rw [List.mem_range'_1] at hmem
  omega

theorem exists_number (h : attempts.map (fun a => a.number) = List.range' 1 attempts.length)
    {k : Nat} (hpos : 1 ≤ k) (hle : k ≤ attempts.length) : ∃ a ∈ attempts, a.number = k := by
  have hmem : k ∈ attempts.map (fun a => a.number) := by
    rw [h, List.mem_range'_1]
    omega
  exact List.mem_map.mp hmem

theorem number_last {front : List AttemptRow} {last : AttemptRow}
    (h : (front ++ [last]).map (fun a => a.number) = List.range' 1 (front ++ [last]).length) :
    last.number = (front ++ [last]).length := by
  rw [List.map_append, List.length_append, List.length_singleton, List.range'_concat] at h
  have hend := List.append_inj_right' h rfl
  simp only [List.map_cons, List.map_nil, List.cons.injEq, and_true] at hend
  rw [List.length_append, List.length_singleton]
  omega

theorem nextNumber_eq (h : attempts.map (fun a => a.number) = List.range' 1 attempts.length) :
    nextNumber attempts = attempts.length + 1 := by
  rw [nextNumber, h, foldl_max_range']

end Attempts

/-! ## Steps -/

namespace RunRow.Consistent

variable {r r' : RunRow} {attempts : List AttemptRow} {id : Uuid} {number : Nat}
  {f : AttemptRow → AttemptRow}

/-- The invariant reads the state, the reason and the finish time of the row. -/
theorem congr (h : r.Consistent attempts) (hstate : r'.state = r.state)
    (hreason : r'.reason = r.reason) (hfinished : r'.finishedAt = r.finishedAt) :
    r'.Consistent attempts := by
  have hocc : r'.occupied = r.occupied := by
    simp only [RunRow.occupied, RunRow.quarantined, hstate, hreason]
  constructor
  · exact h.numbers
  · rw [hocc]; exact h.occupied
  · rw [hocc]; exact h.idle
  · rw [hfinished, hstate]; exact h.finished
  · rw [hstate, hreason]; exact h.unmarked
  · rw [hstate]; exact h.failure

theorem of_terminal (hnumbers : attempts.map (fun a => a.number) = List.range' 1 attempts.length)
    (hnone : NoneActive attempts) (hterminal : r.state.isTerminal = true)
    (hfinished : r.finishedAt.isSome = true) : r.Consistent attempts := by
  have hocc := occupied_eq_false_of_not_live (not_live_of_terminal hterminal)
  constructor
  · exact hnumbers
  · intro h
    rw [hocc] at h
    cases h
  · exact fun _ => hnone
  · rw [hterminal, hfinished]
  · rintro (h | h)
    · rw [not_terminal_of_pending h] at hterminal
      cases hterminal
    · rw [h] at hterminal
      cases hterminal
  · exact fun _ _ _ _ => hterminal

/-- A row without active attempts that becomes terminal. -/
theorem finish_idle (h : r.Consistent attempts) (hidle : r.occupied = false)
    (hterminal : r'.state.isTerminal = true) (hfinished : r'.finishedAt.isSome = true) :
    r'.Consistent attempts :=
  of_terminal h.numbers (h.idle hidle) hterminal hfinished

theorem occupied_of_active (h : r.Consistent attempts) (hactive : HasActive id number attempts) :
    r.occupied = true := by
  cases hocc : r.occupied with
  | true => rfl
  | false => exact absurd (h.idle hocc) (not_noneActive hactive)

theorem noneActive_close (h : r.Consistent attempts) (hactive : HasActive id number attempts)
    (hf : ∀ a, (f a).state.isActive = false) : NoneActive (onActive id number f attempts) :=
  noneActive_onActive (h.occupied (h.occupied_of_active hactive)) hactive hf

theorem finish_active (h : r.Consistent attempts) (hactive : HasActive id number attempts)
    (hkey : ∀ a, (f a).key = a.key) (hf : ∀ a, (f a).state.isActive = false)
    (hterminal : r'.state.isTerminal = true) (hfinished : r'.finishedAt.isSome = true) :
    r'.Consistent (onActive id number f attempts) :=
  of_terminal (numbers_onActive h.numbers hkey) (h.noneActive_close hactive hf) hterminal hfinished

theorem close_active (h : r.Consistent attempts) (hactive : HasActive id number attempts)
    (hkey : ∀ a, (f a).key = a.key) (hf : ∀ a, (f a).state.isActive = false)
    (hclass : ∀ a mayHaveStarted,
      (f a).resultClass ≠ some (Store.runnerFailureStates mayHaveStarted).2.2)
    (hidle : r'.occupied = false) (hlasting : r'.state.isTerminal = false)
    (hfinished : r'.finishedAt = none)
    (hunmarked : r'.state.isPending = true ∨ r'.state = .starting →
      r'.reason ≠ some terminationUnconfirmed) :
    r'.Consistent (onActive id number f attempts) := by
  constructor
  · exact numbers_onActive h.numbers hkey
  · intro hocc
    rw [hidle] at hocc
    cases hocc
  · exact fun _ => h.noneActive_close hactive hf
  · rw [hlasting, hfinished]
    rfl
  · exact hunmarked
  · intro a ha started hfailure
    obtain ⟨a₀, ha₀, rfl⟩ := List.mem_map.mp ha
    split at hfailure
    · exact absurd hfailure (hclass a₀ started)
    -- a failure recorded earlier would have finished the run
    have hterminal := h.failure a₀ ha₀ started hfailure
    rw [not_terminal_of_live (live_of_occupied (h.occupied_of_active hactive))] at hterminal
    cases hterminal

theorem finishedAt_eq_none (h : r.Consistent attempts) (hlasting : r.state.isTerminal = false) :
    r.finishedAt = none := by
  have := h.finished
  rw [hlasting] at this
  simpa using this

theorem start (h : r.Consistent attempts) (hpending : r.state.isPending = true) (lifetime : Uuid)
    (now : Int) : ({ r with state := .starting } : RunRow).Consistent
      (attempts ++ [.start id (nextNumber attempts) lifetime now]) := by
  have hlasting := not_terminal_of_pending hpending
  have hnone := h.idle (occupied_eq_false_of_not_live (not_live_of_pending hpending))
  constructor
  · rw [List.map_append, h.numbers, nextNumber_eq h.numbers, List.length_append]
    simp [AttemptRow.start, List.range'_concat, Nat.add_comm]
  · exact fun _ => ⟨attempts, _, rfl, rfl, hnone⟩
  · intro hocc
    cases hocc
  · simp [h.finishedAt_eq_none hlasting, RunState.isTerminal]
  · exact fun _ => h.unmarked (Or.inl hpending)
  · intro a ha started hfailure
    rcases List.mem_append.mp ha with hmem | hmem
    · have := h.failure a hmem started hfailure
      rw [hlasting] at this
      cases this
    · rw [List.mem_singleton.mp hmem] at hfailure
      cases hfailure

theorem ready (h : r.Consistent attempts) (hstate : r.state = .starting) (now : Int)
    (executable : Option String) : ({ r with state := .running } : RunRow).Consistent
      (attempts.map (fun a => if a.isStartingOf id number then a.markRunning now executable
        else a)) := by
  have hreason := h.unmarked (Or.inr hstate)
  have hlasting : r.state.isTerminal = false := by rw [hstate]; rfl
  have hocc : r.occupied = true := by
    simp [RunRow.occupied, RunRow.quarantined, hstate, RunState.isLive]
  constructor
  · apply numbers_map h.numbers
    intro a
    split
    · rfl
    · rfl
  · intro _
    apply (h.occupied hocc).map
    intro a _
    split
    · next hof =>
      simp only [AttemptRow.isStartingOf, Bool.and_eq_true, decide_eq_true_eq] at hof
      rw [hof.2]
      rfl
    · rfl
  · intro hidle
    simp [RunRow.occupied, RunRow.quarantined, RunState.isLive, hreason] at hidle
  · simp [h.finishedAt_eq_none hlasting, RunState.isTerminal]
  · rintro (hpending | hstarting)
    · cases hpending
    · cases hstarting
  · intro a ha started hfailure
    obtain ⟨a₀, ha₀, rfl⟩ := List.mem_map.mp ha
    have hclass : a₀.resultClass = some (Store.runnerFailureStates started).2.2 := by
      split at hfailure
      · exact hfailure
      · exact hfailure
    have := h.failure a₀ ha₀ started hclass
    rw [hlasting] at this
    cases this

/-- A run that the end of its daemon leaves as it is has no active attempt. -/
theorem occupied_eq_false_of_not_stale (h : r.Consistent attempts) (hstale : r.stale = false) :
    r.occupied = false := by
  by_contra hocc
  simp only [Bool.not_eq_false] at hocc
  have hlive := live_of_occupied hocc
  simp only [stale, hlive, Bool.true_and, bne_eq_false_iff_eq] at hstale
  cases hstate : r.state with
  | starting => exact h.unmarked (Or.inr hstate) hstale
  | running =>
    rw [occupied_eq_false_of_quarantined (by simp [quarantined, hstate, hstale])] at hocc
    cases hocc
  | _ => simp [hstate, RunState.isLive] at hlive

theorem interrupt (h : r.Consistent attempts) (now : Int) :
    (if r.stale then r.interrupt now else r).Consistent
      (attempts.map (fun a => if a.state.isActive then a.interrupt now else a)) := by
  have hnumbers : (attempts.map (fun a => if a.state.isActive then a.interrupt now else a)).map
      (fun a => a.number) = List.range' 1 (attempts.map
        (fun a => if a.state.isActive then a.interrupt now else a)).length := by
    apply numbers_map h.numbers
    intro a
    split
    · rfl
    · rfl
  split
  · apply of_terminal hnumbers ?_ rfl rfl
    intro b hb
    obtain ⟨a, ha, rfl⟩ := List.mem_map.mp hb
    split
    · rfl
    · next hnot => simpa using hnot
  · next hstale =>
    -- nothing is active, so nothing changes
    have hidle := h.idle (h.occupied_eq_false_of_not_stale (by simpa using hstale))
    have hsame : attempts.map (fun a => if a.state.isActive then a.interrupt now else a)
        = attempts := by
      conv_rhs => rw [← List.map_id attempts]
      apply List.map_congr_left
      intro a ha
      simp [hidle a ha]
    rw [hsame]
    exact h

theorem runnerFailure (h : r.Consistent attempts) {now duration : Int} {reason : String}
    {started : Bool} (hrun : r' = if r.state.isLive then
      r.finishCandidate (Store.runnerFailureStates started).2.1 reason now else r)
    (happlied : (r.state.isLive = true ∧ HasActive id number attempts) ∨
      ∃ a ∈ onActive id number (AttemptRow.close (Store.runnerFailureStates started).1 now duration
        (Store.runnerFailureStates started).2.2 reason) attempts, a.number = number ∧
        a.resultClass = some (Store.runnerFailureStates started).2.2) :
    r'.Consistent (onActive id number (AttemptRow.close (Store.runnerFailureStates started).1 now
      duration (Store.runnerFailureStates started).2.2 reason) attempts) := by
  have hstates : (Store.runnerFailureStates started).1.isActive = false ∧
      (Store.runnerFailureStates started).2.1.isTerminal = true := by
    cases started
    · exact ⟨rfl, rfl⟩
    · exact ⟨rfl, rfl⟩
  by_cases hactive : HasActive id number attempts
  · have hlive := live_of_occupied (h.occupied_of_active hactive)
    rw [hrun, if_pos hlive]
    exact h.finish_active hactive AttemptRow.key_close (fun _ => hstates.1) hstates.2 rfl
  rw [onActive_of_not_hasActive hactive] at happlied ⊢
  rcases happlied with ⟨-, hno⟩ | ⟨a, ha, -, hclass⟩
  · exact absurd hno hactive
  have hlive := not_live_of_terminal (h.failure a ha started hclass)
  rw [hrun, if_neg (by simp [hlive])]
  exact h

end RunRow.Consistent

/-- Retries do not give the mark of a quarantine as their reason. -/
def unmarkedReason : Permits := .ofRetry (fun _ reason => reason ≠ terminationUnconfirmed)

variable {id : Uuid} {v v' : RunView} {permits : Permits}

theorem OverlapStep.consistent (h : OverlapStep permits id v v')
    (hv : v.Consistent) : v'.Consistent := by
  cases h with
  | insert r hid hnew hmay =>
    rintro _ ⟨⟩
    rcases hnew.state with ⟨hstate, hreason, hfinished⟩ | ⟨hterminal, hfinished⟩
    · constructor
      · rfl
      · intro hocc
        simp [RunRow.occupied, hstate, RunState.isLive] at hocc
      · exact fun _ _ ha => by cases ha
      · simp [hstate, hfinished, RunState.isTerminal]
      · simp [hreason]
      · exact fun _ ha => by cases ha
    · exact .of_terminal rfl (fun _ ha => by cases ha) hterminal hfinished
  | supersede r now hpending =>
    rintro _ ⟨⟩
    exact (hv r rfl).finish_idle
      (RunRow.occupied_eq_false_of_not_live (RunRow.not_live_of_pending hpending)) rfl rfl
  | requestReplacement r now hlive =>
    rintro _ ⟨⟩
    exact (hv r rfl).congr rfl rfl rfl

/-- **Every step of a run preserves the invariant**, if retries do not give the mark. -/
theorem RunStep.consistent (hv : v.Consistent)
    (h : RunStep unmarkedReason id v v') : v'.Consistent := by
  cases h with
  | keep => exact hv
  | overlap h =>
    induction h with
    | refl => exact hv
    | tail _ hlast ih => exact hlast.consistent ih
  | start r lifetime now hpending hrequest =>
    rintro _ ⟨⟩
    exact (hv r rfl).start hpending lifetime now
  | ready r number now executable hstate hcancel hattempt =>
    rintro _ ⟨⟩
    exact (hv r rfl).ready hstate now executable
  | cancelBeforeSpawn r number now reason hlive hcancel hactive =>
    rintro _ ⟨⟩
    exact (hv r rfl).finish_active hactive AttemptRow.key_close (fun _ => rfl) rfl rfl
  | complete r c hstate hactive =>
    rintro _ ⟨⟩
    have hclosed : c.state.attemptState.isActive = false ∧ c.state.runState.isTerminal = true := by
      revert hstate
      cases c.state <;>
        simp [CompletionState.attemptState, AttemptState.isActive, CompletionState.runState,
          RunState.isTerminal]
    exact (hv r rfl).finish_active hactive AttemptRow.key_complete (fun _ => hclosed.1) hclosed.2
      rfl
  | retry r c plan hstate hactive hmay =>
    rintro _ ⟨⟩
    have hr := hv r rfl
    have hlasting := RunRow.not_terminal_of_live
      (RunRow.live_of_occupied (hr.occupied_of_active hactive))
    refine hr.close_active hactive AttemptRow.key_complete ?_ ?_ rfl rfl
      (hr.finishedAt_eq_none hlasting) ?_
    · intro a
      rcases hstate with hc | hc
      · simp [AttemptRow.complete, AttemptRow.close, hc, CompletionState.attemptState,
          AttemptState.isActive]
      · simp [AttemptRow.complete, AttemptRow.close, hc, CompletionState.attemptState,
          AttemptState.isActive]
    · intro a started
      rcases hstate with hc | hc <;> cases started <;>
        simp [AttemptRow.complete, AttemptRow.close, hc, CompletionState.text,
          Store.runnerFailureStates]
    · intro _ hreason
      exact hmay (Option.some.inj hreason)
  | quarantine r number now duration reason hlive hactive hmay =>
    rintro _ ⟨⟩
    refine (hv r rfl).close_active hactive AttemptRow.key_close (fun _ => rfl) ?_ ?_ rfl rfl ?_
    · intro a started
      cases started <;>
        simp [AttemptRow.close, terminationUnconfirmed, Store.runnerFailureStates]
    · exact RunRow.occupied_eq_false_of_quarantined (by simp [RunRow.quarantine,
        RunRow.quarantined])
    · rintro (hpending | hstarting)
      · cases hpending
      · cases hstarting
  | failCandidate r _ _ hpending | cancelPending r _ hpending =>
    rintro _ ⟨⟩
    exact (hv r rfl).finish_idle
      (RunRow.occupied_eq_false_of_not_live (RunRow.not_live_of_pending hpending)) rfl rfl
  | preExecution r number now reason hactive =>
    rintro _ ⟨⟩
    have hr := hv r rfl
    rw [if_pos (RunRow.live_of_occupied (hr.occupied_of_active hactive))]
    exact hr.finish_active hactive AttemptRow.key_close (fun _ => rfl) rfl rfl
  | runnerFailure r r' attempts' number now duration reason started hrun hattempts happlied =>
    rintro _ ⟨⟩
    subst hattempts
    exact (hv r rfl).runnerFailure hrun (happlied.imp_right And.right)
  | requestCancellation r now hlive =>
    rintro _ ⟨⟩
    exact (hv r rfl).congr rfl rfl rfl
  | acknowledge r now hquarantined hmay =>
    rintro _ ⟨⟩
    exact (hv r rfl).finish_idle (RunRow.occupied_eq_false_of_quarantined hquarantined) rfl rfl
  | interrupt _ now =>
    intro r' hr'
    obtain ⟨r, hr, rfl⟩ := Option.map_eq_some_iff.mp hr'
    exact (hv r hr).interrupt now
  | delete r hterminal hmay =>
    rintro _ ⟨⟩

/-! ## Terminal runs -/

/-- What a step leaves of a finished run: everything, or nothing. -/
def RunRow.FinishedAs (r : RunRow) (v : RunView) : Prop :=
  v.run = none ∨ ∃ r', v.run = some r' ∧ r'.state = r.state ∧ r'.reason = r.reason ∧
    r'.finishedAt = r.finishedAt

theorem OverlapStep.not_terminal (h : OverlapStep permits id v v')
    {r : RunRow} (hr : v.run = some r) : r.state.isTerminal = false := by
  cases h with
  | insert _ _ _ _ => cases hr
  | supersede _ _ hpending =>
    cases hr
    exact RunRow.not_terminal_of_pending hpending
  | requestReplacement _ _ hlive =>
    cases hr
    exact RunRow.not_terminal_of_live hlive

theorem RunStep.finishedAs
    (hv : v.Consistent) (h : RunStep permits id v v') {r : RunRow} (hr : v.run = some r)
    (hterminal : r.state.isTerminal = true) : r.FinishedAs v' := by
  have hlive : r.state.isLive = false := RunRow.not_live_of_terminal hterminal
  have hpending : ¬ r.state.isPending = true := by
    intro h
    rw [RunRow.not_terminal_of_pending h] at hterminal
    cases hterminal
  -- a finished run has no attempt to complete
  have hactive : ∀ number, ¬ HasActive id number v.attempts := by
    intro number h
    rw [RunRow.live_of_occupied ((hv r hr).occupied_of_active h)] at hlive
    cases hlive
  have hkeep : r.FinishedAs v := Or.inr ⟨r, hr, rfl, rfl, rfl⟩
  cases h with
  | keep => exact hkeep
  | overlap h =>
    cases h.cases_head with
    | inl heq => exact heq ▸ hkeep
    | inr hstep =>
      obtain ⟨v₁, hfirst, -⟩ := hstep
      rw [hfirst.not_terminal hr] at hterminal
      cases hterminal
  | start _ _ _ hp | failCandidate _ _ _ hp | cancelPending _ _ hp =>
    cases hr; exact absurd hp hpending
  | ready _ _ _ _ hstate _ _ =>
    cases hr
    rw [hstate] at hterminal
    cases hterminal
  | cancelBeforeSpawn _ number _ _ _ _ ha | quarantine _ number _ _ _ _ ha
  | preExecution _ number _ _ ha => exact absurd ha (hactive number)
  | complete _ c _ ha => exact absurd ha (hactive _)
  | retry _ c _ _ ha _ => exact absurd ha (hactive _)
  | runnerFailure r₀ r' _ _ _ _ _ _ hrun _ _ =>
    obtain rfl : r₀ = r := Option.some.inj hr
    rw [if_neg (by simp [hlive])] at hrun
    exact Or.inr ⟨r', rfl, by rw [hrun], by rw [hrun], by rw [hrun]⟩
  | requestCancellation _ _ hl =>
    cases hr
    rw [hlive] at hl
    cases hl
  | acknowledge _ _ hq _ =>
    cases hr
    rw [RunRow.live_of_quarantined hq] at hlive
    cases hlive
  | interrupt _ now =>
    refine Or.inr ⟨r, ?_, rfl, rfl, rfl⟩
    simp [hr, RunRow.stale, hlive]
  | delete _ _ _ => exact Or.inl rfl

/-! ## Reachable states -/

namespace Store

/-- The attempts of a run, in the order they were started. -/
def attemptsOf (s : Store) (run : Uuid) : List AttemptRow :=
  s.attempts.rows.filter (fun a => a.runId = run)

structure ConsistentRun (s : Store) (r : RunRow) : Prop where
  /-- A run that is starting or running has one active attempt, the one of the highest number. -/
  active : r.state.isLive = true → r.quarantined = false →
    ∃ a ∈ s.attemptsOf r.id, a.state.isActive = true ∧
      (∀ b ∈ s.attemptsOf r.id, b.state.isActive = true → b = a) ∧
      ∀ b ∈ s.attemptsOf r.id, b.number ≤ a.number
  /-- Any other run has none. -/
  idle : r.state.isLive = false ∨ r.quarantined = true →
    ∀ a ∈ s.attemptsOf r.id, a.state.isActive = false
  /-- Exactly terminal runs have a finish time. -/
  finished : r.finishedAt.isSome = true ↔ r.state.isTerminal = true
  /-- The attempts are numbered from one on without gaps. -/
  numbered : (s.attemptsOf r.id).map (fun a => a.number)
    = List.range' 1 (s.attemptsOf r.id).length

/-- Once terminal, a run keeps its state, reason and finish time until it is deleted. -/
def KeepsFinished (s s' : Store) : Prop :=
  ∀ r ∈ s.runs.rows, r.state.isTerminal = true →
    s'.runs.find r.id = none ∨ ∃ r', s'.runs.find r.id = some r' ∧ r'.state = r.state ∧
      r'.reason = r.reason ∧ r'.finishedAt = r.finishedAt

/-- No retrying completion gives the mark of a quarantine as its reason. -/
def unmarkedRetries (_ : Store) : Op → Prop
  | .completeAttempt c => c.retry.isSome = true → c.reason ≠ terminationUnconfirmed
  | _ => True

variable {s : Store}

theorem Reachable.consistent (h : Reachable unmarkedRetries s) (id : Uuid) :
    (s.view id).Consistent := by
  have hallowed : ∀ s op, unmarkedRetries s op → Permitted unmarkedReason s op := by
    intro s op hop
    apply permitted_ofRetry
    rintro c rfl hretry _ _
    exact hop hretry
  exact h.view_induction hallowed (fun _ h => by cases h) RunStep.consistent id

/-- The invariant in terms of the tables. -/
theorem consistentRun_of_view {r : RunRow} (hr : r ∈ s.runs.rows)
    (h : (s.view r.id).Consistent) : s.ConsistentRun r := by
  have hcons : r.Consistent (s.attemptsOf r.id) := h r (Table.find_of_mem hr)
  constructor
  · intro hlive hquarantined
    obtain ⟨front, last, hsplit, hactive, hfront⟩ :=
      hcons.occupied (by simp [RunRow.occupied, hlive, hquarantined])
    have hnumbers := hcons.numbers
    rw [hsplit] at hnumbers ⊢
    refine ⟨last, by simp, hactive, ?_, ?_⟩
    · intro b hb hbactive
      rcases List.mem_append.mp hb with hmem | hmem
      · rw [hfront b hmem] at hbactive
        cases hbactive
      · exact List.mem_singleton.mp hmem
    · -- the numbers are increasing, and the last attempt has the last of them
      intro b hb
      rw [number_last hnumbers]
      exact (number_le_length hnumbers hb).2
  · rintro (hlive | hquarantined)
    · exact hcons.idle (RunRow.occupied_eq_false_of_not_live hlive)
    · exact hcons.idle (RunRow.occupied_eq_false_of_quarantined hquarantined)
  · rw [hcons.finished]
  · exact hcons.numbers

theorem Reachable.keepsFinished {s' : Store} (h : Reachable unmarkedRetries s) {op : Op}
    (happly : s.apply op = .ok s') : KeepsFinished s s' := by
  intro r hr hterminal
  exact (apply_effect h.owned (permitted_all s op) happly r.id).finishedAs (h.consistent r.id)
    (Table.find_of_mem hr) hterminal

/-- **Runs and attempts agree in every reachable state**, and terminal runs stay as they are: in
every run of operations in which no retry gives the mark of a quarantine as its reason. -/
theorem runs_consistent {s : Store} (h : Reachable unmarkedRetries s) :
    (∀ r ∈ s.runs.rows, s.ConsistentRun r) ∧
      ∀ op s', s.apply op = .ok s' → KeepsFinished s s' :=
  ⟨fun r hr => consistentRun_of_view hr (h.consistent r.id), fun _ _ => h.keepsFinished⟩

def retryingJob : Snapshot :=
  .job ⟨.every 3600000000 0, { ExecutionPolicy.default with retries := 1 }, .retain, "true"⟩

/-- The attempt fails and is retried at time `now`, with the given reason. -/
def failAndRetry (run : Uuid) (number : Nat) (now : Int) (reason : String) : Op :=
  .completeAttempt ⟨run, number, now, 0, .failed, some 1, none, none, reason,
    some ⟨now, "process_exit"⟩⟩

/-- A manual run whose first attempt fails and is retried, up to the start of the second. -/
def retriedRun (reason : String) : List Op :=
  [.createJob ⟨1, "job", none, "[]", true, retryingJob, 0, 0⟩,
   .beginLifetime 2 0,
   .enqueueManual 1 1 retryingJob 3 0,
   .admitRuns (fun _ => some retryingJob) 2 0 1,
   .markAttemptRunning 3 1 0 none,
   failAndRetry 3 1 0 reason,
   .admitRuns (fun _ => some retryingJob) 2 0 1,
   .markAttemptRunning 3 2 0 none]

/-- After a retry with the mark as its reason, a running attempt belongs to a run that counts as
quarantined. -/
theorem marked_retry_inconsistent :
    ∃ s, Reachable anyOp s ∧ ∃ r ∈ s.runs.rows, ¬ s.ConsistentRun r := by
  obtain ⟨s, hs, r, hr, hquarantined, a, ha, hactive⟩ := exists_reachable anyOp
    (retriedRun terminationUnconfirmed)
    (fun s => ∃ r ∈ s.runs.rows, r.quarantined = true ∧
      ∃ a ∈ s.attemptsOf r.id, a.state.isActive = true)
    (fun _ _ _ => trivial) (by decide +kernel)
  refine ⟨s, hs, r, hr, ?_⟩
  intro hcons
  rw [hcons.idle (Or.inr hquarantined) a ha] at hactive
  cases hactive

/-- The same run with an ordinary reason meets the condition. -/
theorem runs_consistent_retried :
    ∃ s, Reachable unmarkedRetries s ∧ (∃ r ∈ s.runs.rows, r.state = .running) ∧
      ∀ r ∈ s.runs.rows, s.ConsistentRun r := by
  obtain ⟨s, hs, hrunning⟩ := exists_reachable unmarkedRetries (retriedRun "exited with 1")
    (fun s => ∃ r ∈ s.runs.rows, r.state = .running)
    (by simp [retriedRun, failAndRetry, unmarkedRetries, terminationUnconfirmed])
    (by decide +kernel)
  exact ⟨s, hs, hrunning, (runs_consistent hs).1⟩

end Store

end Locron
