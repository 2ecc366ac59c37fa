import Locron.Daemon.Completion
import Locron.Lib.Runs
import Locron.Store.Activity
import Locron.Store.Progress

set_option autoImplicit false

/-! # Retries are bounded and never early

The engine decides about a retry, the adapter records the decision with the completion, and
admission waits for the recorded time. The machine below is the adapter over the store, with a
history of how attempts ended. An attempt is followed by another one only if the policy of the
snapshot retries its end, and not before the delay that the policy asks for.
-/

namespace Locron

/-- How and when an attempt ended; `cls` is what the retry policy looks at. -/
structure Ending where
  run : Uuid
  number : Nat
  cls : RetryClass
  finishedAt : Option Int

/-- The policy of the snapshot retries this end, and allows the next attempt at the given time. -/
def Ending.Allows (e : Ending) (snapshot : Snapshot) (at_ : Int) : Prop :=
  ∃ d t plan, snapshot.definition = some d ∧ e.finishedAt = some t ∧ Supported t ∧
    decideRetry d.policy e.number t e.cls = some plan ∧ plan.notBefore ≤ at_

theorem Ending.Allows.mono {e : Ending} {snapshot : Snapshot} {t t' : Int}
    (h : e.Allows snapshot t) (hle : t ≤ t') : e.Allows snapshot t' := by
  obtain ⟨d, t₀, plan, hd, hfinished, hsupported, hplan, hbefore⟩ := h
  exact ⟨d, t₀, plan, hd, hfinished, hsupported, hplan, hbefore.trans hle⟩

/-! ## The delays -/

def ExecutionPolicy.delayAfter (policy : ExecutionPolicy) (attempt : Nat) : Nat :=
  Locron.retryDelay policy.retryDelay policy.retryCap attempt (policy.backoff = .exponential)

theorem retryDelay_exponential (base cap : Nat) {attempt : Nat} (hpos : 1 ≤ attempt)
    (hle : attempt ≤ 32) :
    retryDelay base cap attempt true = min (base * 2 ^ (attempt - 1)) cap := by
  unfold retryDelay
  by_cases hfirst : attempt ≤ 1
  · obtain rfl : attempt = 1 := by omega
    simp
  rw [if_neg (by simp [hfirst])]
  have hshift : min (attempt - 1) 63 = attempt - 1 := by omega
  simp only [hshift]
  rw [if_pos (by omega)]

/-- The factor of an exponential delay; it is a 32-bit number. -/
theorem retryDelay_eq (base cap attempt : Nat) : retryDelay base cap attempt true =
    min (base * (if attempt ≤ 32 then 2 ^ (attempt - 1) else 2 ^ 32 - 1)) cap := by
  by_cases hle : attempt ≤ 32
  · rw [if_pos hle]
    rcases Nat.eq_zero_or_pos attempt with rfl | hpos
    · simp [retryDelay]
    · exact retryDelay_exponential base cap hpos hle
  · rw [if_neg hle]
    unfold retryDelay
    rw [if_neg (by simp; omega)]
    have hshift : ¬ min (attempt - 1) 63 < 32 := by omega
    simp only
    rw [if_neg hshift]

/-- **Delays never decrease.** -/
theorem retryDelay_mono (base cap : Nat) (exponential : Bool) {k l : Nat} (hle : k ≤ l) :
    retryDelay base cap k exponential ≤ retryDelay base cap l exponential := by
  cases exponential with
  | false => exact le_refl _
  | true =>
    rw [retryDelay_eq, retryDelay_eq]
    refine min_le_min_right cap (Nat.mul_le_mul_left base ?_)
    split
    · next hk =>
      split
      · exact Nat.pow_le_pow_right (by decide) (by omega)
      · calc 2 ^ (k - 1) ≤ 2 ^ 31 := Nat.pow_le_pow_right (by decide) (by omega)
          _ ≤ 2 ^ 32 - 1 := by decide
    · next hk =>
      rw [if_neg (by omega)]

theorem i64OfNat_add_le {delay : Nat} {t now : Int} (ht : Supported t) (hnow : Supported now)
    (h : saturate (t + (i64OfNat delay).getD i64Max) ≤ now) : t + delay ≤ now := by
  obtain ⟨hlow, -⟩ := ht
  obtain ⟨-, hhigh⟩ := hnow
  unfold saturate i64OfNat at h
  unfold instantMin instantMax at *
  unfold i64Max i64Min at h
  split at h
  · simp only [Option.getD_some] at h
    omega
  · simp only [Option.getD_none] at h
    omega

/-- **What a retry takes**: the attempt is one of the first `retries`, it has failed or timed out,
and the time of the next one is not before the delay has passed. -/
theorem Ending.Allows.spec {e : Ending} {snapshot : Snapshot} {at_ : Int} {d : JobDefinition}
    (h : e.Allows snapshot at_) (hat : Supported at_) (hd : snapshot.definition = some d) :
    1 ≤ e.number ∧ e.number ≤ d.policy.retries ∧
      (e.cls = .knownFailure ∨ (e.cls = .timeout ∧ d.policy.retryTimeout = true)) ∧
      ∃ t, e.finishedAt = some t ∧ t + d.policy.delayAfter e.number ≤ at_ := by
  obtain ⟨d', t, plan, hd', hfinished, hsupported, hplan, hbefore⟩ := h
  obtain rfl : d' = d := Option.some.inj (hd'.symm.trans hd)
  unfold decideRetry at hplan
  split at hplan
  · cases hplan
  next hcount =>
  push Not at hcount
  obtain ⟨text, htext, rfl⟩ := Option.map_eq_some_iff.mp hplan
  refine ⟨by omega, hcount.2, ?_, t, hfinished, ?_⟩
  · split at htext
    · next hcls => exact Or.inl hcls
    · next hcls =>
      obtain ⟨htimeout, -⟩ := Option.ite_none_right_eq_some.mp htext
      exact Or.inr ⟨hcls, htimeout⟩
    · cases htext
  · exact i64OfNat_add_le hsupported hat hbefore

/-! ## One run -/

/-- What the attempts of a run and the ways they ended have to do with each other: every end belongs
to an inactive attempt, and only an end that the policy retries is followed by another attempt. -/
structure RunRow.Retried (r : RunRow) (attempts : List AttemptRow) (endings : List Ending) :
    Prop where
  ended : ∀ a ∈ attempts, a.state.isActive = false →
    ∃ e ∈ endings, e.number = a.number ∧ e.finishedAt = a.finishedAt
  inactive : ∀ e ∈ endings, ∃ a ∈ attempts, a.number = e.number ∧ a.state.isActive = false
  next : ∀ e ∈ endings,
    (e.number = attempts.length ∧ (r.state.isPending = true → e.Allows r.snapshot r.eligibleAt)) ∨
    ∃ b ∈ attempts, b.number = e.number + 1 ∧ Supported b.startedAt ∧
      e.Allows r.snapshot b.startedAt

/-- What an operation adds to the ends of a run's attempts. -/
structure EndsWith (cls : RetryClass) (v v' : RunView) (endings endings' : List Ending) : Prop where
  origin : ∀ e ∈ endings', e ∈ endings ∨ (e.cls = cls ∧ ∃ a ∈ v.attempts, a.state.isActive = true ∧
    ∃ a' ∈ v'.attempts, a'.number = a.number ∧ a'.state.isActive = false ∧ e.number = a.number ∧
      e.finishedAt = a'.finishedAt)
  stays : ∀ e ∈ endings, e ∈ endings'
  ends : ∀ a ∈ v.attempts, a.state.isActive = true → ∀ a' ∈ v'.attempts, a'.number = a.number →
    a'.state.isActive = false → ∃ e ∈ endings', e.number = a'.number ∧ e.finishedAt = a'.finishedAt

/-- Starts wait for the recorded time, and retries are those that the policy decides on. -/
def retryPermits (cls : RetryClass) : Permits :=
  { Permits.all with
    start := fun r now => r.eligibleAt ≤ now ∧ Supported now
    plan := fun r c => ∃ d, r.snapshot.definition = some d ∧ Supported c.now ∧
      c.retry = decideRetry d.policy c.attemptNumber c.now cls }

namespace RunRow.Retried

variable {r r' : RunRow} {attempts attempts' : List AttemptRow} {endings endings' : List Ending}
  {cls : RetryClass}

theorem number_of_active (hr : r.Consistent attempts) {a : AttemptRow} (ha : a ∈ attempts)
    (hactive : a.state.isActive = true) : a.number = attempts.length := by
  cases hoccupied : r.occupied with
  | false =>
    rw [hr.idle hoccupied a ha] at hactive
    cases hactive
  | true =>
    obtain ⟨front, last, rfl, -, hfront⟩ := hr.occupied hoccupied
    rcases List.mem_append.mp ha with hmem | hmem
    · rw [hfront a hmem] at hactive
      cases hactive
    · rw [List.mem_singleton.mp hmem]
      exact number_last hr.numbers

theorem of_new (endings : List Ending) (hnil : endings = []) : r.Retried [] endings := by
  subst hnil
  refine ⟨?_, ?_, ?_⟩
  · exact fun a ha => by cases ha
  · exact fun e he => by cases he
  · exact fun e he => by cases he

theorem start (h : r.Retried attempts endings) (hr : r.Consistent attempts)
    (hpending : r.state.isPending = true) {id lifetime : Uuid} {now : Int}
    (hnow : r.eligibleAt ≤ now ∧ Supported now)
    (hends : EndsWith cls ⟨some r, attempts⟩ ⟨some r',
      attempts ++ [.start id (nextNumber attempts) lifetime now]⟩ endings endings')
    (hsnapshot : r'.snapshot = r.snapshot) :
    r'.Retried (attempts ++ [.start id (nextNumber attempts) lifetime now]) endings' := by
  have hidle : NoneActive attempts :=
    hr.idle (RunRow.occupied_eq_false_of_not_live (RunRow.not_live_of_pending hpending))
  have hsame : ∀ e ∈ endings', e ∈ endings := by
    intro e he
    rcases hends.origin e he with hold | ⟨-, a, ha, hactive, -⟩
    · exact hold
    · rw [hidle a ha] at hactive
      cases hactive
  refine ⟨?_, ?_, ?_⟩
  · intro a ha hinactive
    rcases List.mem_append.mp ha with hmem | hmem
    · obtain ⟨e, he, hspec⟩ := h.ended a hmem hinactive
      exact ⟨e, hends.stays e he, hspec⟩
    · rw [List.mem_singleton.mp hmem] at hinactive
      cases hinactive
  · intro e he
    obtain ⟨a, ha, hspec⟩ := h.inactive e (hsame e he)
    exact ⟨a, List.mem_append_left _ ha, hspec⟩
  · intro e he
    rw [hsnapshot]
    rcases h.next e (hsame e he) with ⟨hnumber, hallows⟩ | ⟨b, hb, hspec⟩
    · refine Or.inr ⟨_, List.mem_append_right _ (List.mem_singleton.mpr rfl), ?_, hnow.2,
        (hallows hpending).mono hnow.1⟩
      rw [hnumber]
      exact nextNumber_eq hr.numbers
    · exact Or.inr ⟨b, List.mem_append_left _ hb, hspec⟩

section Continue

variable (h : r.Retried attempts endings) (hr : r.Consistent attempts)
  (hcontinue : AttemptsContinue attempts attempts')
  (hends : EndsWith cls ⟨some r, attempts⟩ ⟨some r', attempts'⟩ endings endings')

include h hcontinue hends

theorem ended_continue : ∀ a' ∈ attempts', a'.state.isActive = false →
    ∃ e ∈ endings', e.number = a'.number ∧ e.finishedAt = a'.finishedAt := by
  intro a' ha' hinactive
  obtain ⟨a, ha, hnumber, hsame⟩ := hcontinue.origin ha'
  cases hactive : a.state.isActive with
  | true => exact hends.ends a ha hactive a' ha' hnumber hinactive
  | false =>
    rw [hsame hactive]
    obtain ⟨e, he, hspec⟩ := h.ended a ha hactive
    exact ⟨e, hends.stays e he, hspec⟩

theorem inactive_continue :
    ∀ e ∈ endings', ∃ a' ∈ attempts', a'.number = e.number ∧ a'.state.isActive = false := by
  intro e he
  rcases hends.origin e he with hold | ⟨-, a, ha, -, a', ha', hnumber, hinactive, henumber, -⟩
  · obtain ⟨a, ha, hnumber, hinactive⟩ := h.inactive e hold
    obtain ⟨a', ha', -, -, hsame⟩ := hcontinue.next ha
    rw [← hsame hinactive] at hnumber hinactive
    exact ⟨a', ha', hnumber, hinactive⟩
  · exact ⟨a', ha', hnumber.trans henumber.symm, hinactive⟩

/-- An earlier end still has its next attempt, or is the last one; a new end is the last one. -/
theorem next_continue (hr : r.Consistent attempts) : ∀ e ∈ endings',
    (e ∈ endings ∧ e.number = attempts'.length ∧
      (r.state.isPending = true → e.Allows r.snapshot r.eligibleAt)) ∨
    (∃ b ∈ attempts', b.number = e.number + 1 ∧ Supported b.startedAt ∧
      e.Allows r.snapshot b.startedAt) ∨
    (e.cls = cls ∧ e.number = attempts'.length ∧ ∃ a ∈ attempts, a.state.isActive = true ∧
      ∃ a' ∈ attempts', a'.number = a.number ∧ a'.state.isActive = false ∧
        e.finishedAt = a'.finishedAt) := by
  intro e he
  rcases hends.origin e he with hold | ⟨hcls, a, ha, hactive, a', ha', hnumber, hinactive, henumber,
    hf⟩
  · rcases h.next e hold with ⟨hnumber, hallows⟩ | ⟨b, hb, hnumber, hsupported, hallows⟩
    · exact Or.inl ⟨hold, hnumber.trans hcontinue.length_eq.symm, hallows⟩
    obtain ⟨b', hb', hnumber', hstarted, -⟩ := hcontinue.next hb
    rw [← hstarted] at hsupported hallows
    exact Or.inr (Or.inl ⟨b', hb', hnumber'.trans hnumber, hsupported, hallows⟩)
  · refine Or.inr (Or.inr ⟨hcls, ?_, a, ha, hactive, a', ha', hnumber, hinactive, hf⟩)
    rw [henumber, number_of_active hr ha hactive, hcontinue.length_eq]

end Continue

theorem retry (h : r.Retried attempts endings) (hr : r.Consistent attempts) {id : Uuid}
    {c : AttemptCompletion} {plan : RetryPlan} (hactive : HasActive id c.attemptNumber attempts)
    (hplan : c.retry = some plan) (hcompletion : (retryPermits cls).plan r c)
    (hends : EndsWith cls ⟨some r, attempts⟩ ⟨some (r.retry plan.notBefore c.reason),
      onActive id c.attemptNumber (AttemptRow.complete c) attempts⟩ endings endings') :
    (r.retry plan.notBefore c.reason).Retried
      (onActive id c.attemptNumber (AttemptRow.complete c) attempts) endings' := by
  have hcontinue : AttemptsContinue attempts
      (onActive id c.attemptNumber (AttemptRow.complete c) attempts) :=
    .onActive id _ fun _ => ⟨rfl, rfl⟩
  obtain ⟨b, hb, hof⟩ := hactive
  have hbactive := AttemptRow.active_of_isActiveOf hof
  have hbnumber : b.number = c.attemptNumber := by
    simp only [AttemptRow.isActiveOf, Bool.and_eq_true, decide_eq_true_eq] at hof
    exact hof.1.2
  refine ⟨h.ended_continue hcontinue hends, h.inactive_continue hcontinue hends, ?_⟩
  intro e he
  rcases h.next_continue hcontinue hends hr e he with
    ⟨hold, hnumber, -⟩ | hnext | ⟨hcls, hnumber, a, ha, haactive, a', ha', hanumber, -, hfinished⟩
  · -- the end of the last attempt, which is active
    obtain ⟨a, ha, hanumber, hinactive⟩ := h.inactive e hold
    rw [hnumber, hcontinue.length_eq, ← number_of_active hr hb hbactive] at hanumber
    rw [eq_of_number_eq hr.numbers hb ha hanumber, hbactive] at hinactive
    cases hinactive
  · exact Or.inr hnext
  · refine Or.inl ⟨hnumber, fun _ => ?_⟩
    obtain ⟨d, hd, hsupported, hdecided⟩ := hcompletion
    have henumber : e.number = c.attemptNumber := by
      rw [hnumber, hcontinue.length_eq, ← number_of_active hr hb hbactive, hbnumber]
    have hefinished : e.finishedAt = some c.now := by
      obtain ⟨a₀, ha₀, rfl⟩ := List.mem_map.mp ha'
      have ha₀number : a₀.number = b.number := by
        have hkey : (if a₀.isActiveOf id c.attemptNumber then a₀.complete c else a₀).number
            = a₀.number := by
          split
          · rfl
          · rfl
        rw [← hkey, hanumber, number_of_active hr ha haactive, number_of_active hr hb hbactive]
      rw [hfinished, eq_of_number_eq hr.numbers hb ha₀ ha₀number, if_pos hof]
      rfl
    refine ⟨d, c.now, plan, hd, hefinished, hsupported, ?_, le_refl _⟩
    rw [henumber, hcls, ← hdecided, hplan]

/-- Any other step. -/
theorem staysOn (h : r.Retried attempts endings) (hr : r.Consistent attempts)
    (hstays : RunView.StaysOn ⟨some r, attempts⟩ ⟨some r', attempts'⟩)
    (hends : EndsWith cls ⟨some r, attempts⟩ ⟨some r', attempts'⟩ endings endings') :
    r'.Retried attempts' endings' := by
  have hcontinue := hstays.attempts
  have hsnapshot := hstays.snapshot r r' rfl rfl
  refine ⟨h.ended_continue hcontinue hends, h.inactive_continue hcontinue hends, ?_⟩
  intro e he
  rw [hsnapshot]
  rcases h.next_continue hcontinue hends hr e he with
    ⟨hold, hnumber, hallows⟩ | hnext | ⟨-, hnumber, a, ha, hactive, a', ha', hanumber, hinactive, -⟩
  · refine Or.inl ⟨hnumber, fun hpending => ?_⟩
    obtain ⟨-, hnil | hsame⟩ := hstays.pending r' rfl hpending
    · obtain ⟨a, ha, -⟩ := h.inactive e hold
      have hnil : attempts = [] := hnil
      rw [hnil] at ha
      cases ha
    · obtain rfl : r = r' := Option.some.inj hsame
      exact hallows hpending
  · exact Or.inr hnext
  · refine Or.inl ⟨hnumber, fun hpending => ?_⟩
    -- a step into a pending state ends nothing
    obtain ⟨heq, -⟩ := hstays.pending r' rfl hpending
    have heq : attempts' = attempts := heq
    rw [heq] at ha'
    rw [eq_of_number_eq hr.numbers ha ha' hanumber, hactive] at hinactive
    cases hinactive

end RunRow.Retried

/-- **Every step of a run keeps its attempts and their ends in order.** -/
theorem RunStep.retried {id : Uuid} {v v' : RunView} {cls : RetryClass}
    {endings endings' : List Ending} (howned : v.Owned) (hv : v.Consistent)
    (h : RunStep (retryPermits cls) id v v')
    (hretried : ∀ r, v.run = some r → r.Retried v.attempts endings)
    (hnone : v.run = none → endings = []) (hends : EndsWith cls v v' endings endings') :
    ∀ r', v'.run = some r' → r'.Retried v'.attempts endings' := by
  intro r' hr'
  obtain ⟨run, attempts⟩ := v
  obtain ⟨run', attempts'⟩ := v'
  obtain rfl : run' = some r' := hr'
  cases run with
  | none =>
    -- a new run has no attempts, and nothing has ended
    obtain rfl : attempts = [] := howned rfl
    obtain rfl : endings = [] := hnone rfl
    have hnil : endings' = [] := by
      refine List.eq_nil_iff_forall_not_mem.mpr fun e he => ?_
      rcases hends.origin e he with hold | ⟨-, a, ha, -⟩
      · cases hold
      · cases ha
    rcases h.progress hv with hdeleted | ⟨r₀, _, _, hr₀, -⟩ | ⟨r₀, _, _, hr₀, -⟩ | hstays
    · cases hdeleted
    · cases hr₀
    · cases hr₀
    · obtain rfl : attempts' = [] := List.length_eq_zero_iff.mp hstays.attempts.length_eq
      exact .of_new endings' hnil
  | some r =>
    have hold := hretried r rfl
    have hr := hv r rfl
    rcases h.progress hv with hdeleted | ⟨r₀, lifetime, now, hr₀, hpending, hmay, hv'⟩ |
      ⟨r₀, c, plan, hr₀, hactive, hplan, hcompletion, hv'⟩ | hstays
    · cases hdeleted
    · cases hr₀
      cases hv'
      exact hold.start hr hpending hmay hends rfl
    · cases hr₀
      cases hv'
      exact hold.retry hr hactive hplan hcompletion hends
    · exact hold.staysOn hr hstays hends

/-! ## The adapter over the store -/

/-- The adapter completes an attempt with an outcome; everything else is an operation of the
store. -/
inductive RetryAction where
  | complete (run : Uuid) (number : Nat) (outcome : ExecutionOutcome) (now : Int)
  | other (op : Op)

/-- The store, and the ways in which the attempts of its runs have ended. -/
structure Retries where
  store : Store
  endings : List Ending

namespace Retries

def initial : Retries := ⟨.initial, []⟩

/-- What the retry policy would make of an attempt that the action ends: a start that is refused is
a cancellation, a target that cannot be prepared is a configuration failure, and what a lifetime
leaves behind is unknown. -/
def endingClass : RetryAction → RetryClass
  | .complete _ _ outcome _ => outcome.kind.retryClass
  | .other (.markAttemptRunning _ _ _ _) => .cancelled
  | .other (.completePreExecutionFailure _ _ _ _ _) => .configuration
  | .other (.completeRunnerFailure _ _ _ _ mayHaveStarted) =>
    if mayHaveStarted then .interruptedUnknown else .configuration
  | .other _ => .interruptedUnknown

/-- The operation of an action. The adapter reads the snapshot of the run for its policy. -/
def operation (s : Store) : RetryAction → Option Op
  | .complete run number outcome now =>
    ((s.runs.find run).bind (fun r => r.snapshot.definition)).map
      (fun d => .completeAttempt (d.completion run number outcome now))
  | .other (.completeAttempt _) => none
  | .other op => some op

/-- The attempts that are active before and not after. -/
def ended (cls : RetryClass) (s s' : Store) : List Ending :=
  s.attempts.rows.filterMap (fun a =>
    match s'.attempts.find a.key with
    | none => none
    | some a' =>
      if a.state.isActive && !a'.state.isActive then
        some ⟨a.runId, a.number, cls, a'.finishedAt⟩
      else none)

/-- One transaction. The ends of a deleted run are forgotten with it. -/
def act (m : Retries) (a : RetryAction) : Option Retries :=
  match operation m.store a with
  | none => none
  | some op =>
    match m.store.apply op with
    | .error _ => none
    | .ok s => some ⟨s, (m.endings ++ ended (endingClass a) m.store s).filter
        (fun e => (s.runs.find e.run).isSome)⟩

/-- Outcomes are those that the runner reports, and clock readings are timestamps. -/
def allowed (_ : Retries) : RetryAction → Prop
  | .complete _ _ outcome now => outcome.Reported ∧ Supported now
  | .other (.admitRuns _ _ now _) => Supported now
  | .other _ => True

def Reaches : Retries → Prop := Runs.Reaches act allowed (· = initial)

variable {m m' : Retries} {a : RetryAction} {s s' : Store} {op : Op}

theorem act_eq_some (h : m.act a = some m') : ∃ op s', operation m.store a = some op ∧
    m.store.apply op = .ok s' ∧ m' = ⟨s', (m.endings ++ ended (endingClass a) m.store s').filter
      (fun e => (s'.runs.find e.run).isSome)⟩ := by
  unfold act at h
  split at h
  · cases h
  next op hop =>
  split at h
  · cases h
  next s' hs' =>
  cases h
  exact ⟨op, s', hop, hs', rfl⟩

theorem mem_ended {cls : RetryClass} {e : Ending} : e ∈ ended cls s s' ↔ e.cls = cls ∧
    ∃ a ∈ (s.view e.run).attempts, a.state.isActive = true ∧ a.number = e.number ∧
      ∃ a' ∈ (s'.view e.run).attempts, a'.number = a.number ∧ a'.state.isActive = false ∧
        e.finishedAt = a'.finishedAt := by
  unfold ended
  rw [List.mem_filterMap]
  constructor
  · rintro ⟨a, ha, heq⟩
    split at heq
    · cases heq
    next a' ha' =>
    have hkey : a'.key = a.key := Table.key_of_find ha'
    have hrun : a'.runId = a.runId := congrArg Prod.fst hkey
    rw [Option.ite_none_right_eq_some] at heq
    obtain ⟨hactive, heq⟩ := heq
    simp only [Bool.and_eq_true, Bool.not_eq_true'] at hactive
    cases heq
    exact ⟨rfl, a, Store.mem_view_attempts.mpr ⟨ha, rfl⟩, hactive.1, rfl, a',
      Store.mem_view_attempts.mpr ⟨Table.mem_of_find ha', hrun⟩, congrArg Prod.snd hkey,
      hactive.2, rfl⟩
  · rintro ⟨hcls, a, ha, hactive, hnumber, a', ha', hnumber', hinactive, hfinished⟩
    obtain ⟨hmem, hrun⟩ := Store.mem_view_attempts.mp ha
    obtain ⟨hmem', hrun'⟩ := Store.mem_view_attempts.mp ha'
    have hkey : a'.key = a.key := Prod.ext (hrun'.trans hrun.symm) hnumber'
    refine ⟨a, hmem, ?_⟩
    rw [← hkey, Table.find_of_mem hmem']
    simp only [hactive, hinactive, Bool.not_false, Bool.and_self, if_true]
    obtain ⟨run, number, cls', finishedAt⟩ := e
    simp_all

/-- What the machine records, seen from one run that is still there. -/
theorem endsWith (cls : RetryClass) (endings : List Ending) {id : Uuid}
    (hrun : (s'.runs.find id).isSome = true) :
    EndsWith cls (s.view id) (s'.view id) (endings.filter (fun e => e.run = id))
      (((endings ++ ended cls s s').filter (fun e => (s'.runs.find e.run).isSome)).filter
        (fun e => e.run = id)) := by
  refine ⟨?_, ?_, ?_⟩
  · intro e he
    obtain ⟨hkept, hid⟩ := List.mem_filter.mp he
    obtain rfl : e.run = id := by simpa using hid
    rcases List.mem_append.mp (List.mem_filter.mp hkept).1 with hold | hnew
    · exact Or.inl (List.mem_filter.mpr ⟨hold, hid⟩)
    obtain ⟨hcls, a, ha, hactive, hnumber, a', ha', hnumber', hinactive, hfinished⟩ :=
      mem_ended.mp hnew
    exact Or.inr ⟨hcls, a, ha, hactive, a', ha', hnumber', hinactive, hnumber.symm, hfinished⟩
  · intro e he
    obtain ⟨he, hid⟩ := List.mem_filter.mp he
    refine List.mem_filter.mpr ⟨List.mem_filter.mpr ⟨List.mem_append_left _ he, ?_⟩, hid⟩
    rw [show e.run = id by simpa using hid]
    exact hrun
  · intro a ha hactive a' ha' hnumber hinactive
    have hnew : (⟨id, a.number, cls, a'.finishedAt⟩ : Ending) ∈ ended cls s s' :=
      mem_ended.mpr ⟨rfl, a, ha, hactive, rfl, a', ha', hnumber, hinactive, rfl⟩
    refine ⟨_, List.mem_filter.mpr ⟨List.mem_filter.mpr ⟨List.mem_append_right _ hnew, hrun⟩, ?_⟩,
      hnumber.symm, rfl⟩
    simp

/-! ## The invariant -/

structure Invariant (m : Retries) : Prop where
  store : Store.Reachable Store.systemOp m.store
  known : ∀ e ∈ m.endings, (m.store.runs.find e.run).isSome = true
  retried : ∀ id r, m.store.runs.find id = some r →
    r.Retried (m.store.attemptsOf id) (m.endings.filter (fun e => e.run = id))

theorem systemOp_of_operation (hallowed : m.allowed a) (h : operation m.store a = some op) :
    m.store.systemOp op := by
  cases a with
  | complete run number outcome now =>
    obtain ⟨d, hd, rfl⟩ := Option.map_eq_some_iff.mp h
    obtain ⟨r, hr, hd⟩ := Option.bind_eq_some_iff.mp hd
    exact ⟨r, d, outcome, hr, hd, rfl, hallowed.1⟩
  | other op' =>
    cases op' with
    | completeAttempt c => cases h
    | _ =>
      cases h
      trivial

/-- **The chain of decisions**: the adapter records what the policy decides, and admission waits for
the recorded time. -/
theorem permitted_of_operation (hallowed : m.allowed a) (h : operation m.store a = some op) :
    Store.Permitted (retryPermits (endingClass a)) m.store op := by
  cases a with
  | complete run number outcome now =>
    obtain ⟨d, hd, rfl⟩ := Option.map_eq_some_iff.mp h
    obtain ⟨r, hr, hd⟩ := Option.bind_eq_some_iff.mp hd
    refine ⟨fun _ _ _ => trivial, fun _ _ _ => trivial, fun _ r' hr' => ?_⟩
    obtain rfl : r = r' := Option.some.inj (hr.symm.trans hr')
    exact ⟨d, hd, hallowed.2, rfl⟩
  | other op' =>
    cases op' with
    | completeAttempt c => cases h
    | admitRuns prepared lifetime now guard =>
      cases h
      intro r _ heligible
      simp only [Store.eligible, Bool.and_eq_true, decide_eq_true_eq] at heligible
      exact ⟨heligible.1.1.1.1.2, hallowed⟩
    | enqueueManual | materialize | cancel =>
      cases h
      exact fun _ _ _ => trivial
    | finishRunRetention candidate =>
      cases h
      exact fun _ _ => trivial
    | _ =>
      cases h
      trivial

theorem Invariant.act (hm : m.Invariant) (hallowed : m.allowed a) (h : m.act a = some m') :
    m'.Invariant := by
  obtain ⟨op, s', hop, happly, rfl⟩ := act_eq_some h
  have hunmarked : Store.Reachable Store.unmarkedRetries m.store :=
    hm.store.mono fun _ _ => Store.unmarkedRetries_of_systemOp
  refine ⟨hm.store.tail ⟨op, systemOp_of_operation hallowed hop, happly⟩, ?_, ?_⟩
  · intro e he
    exact (List.mem_filter.mp he).2
  · intro id r' hr'
    have hstep := Store.apply_effect hunmarked.owned (permitted_of_operation hallowed hop) happly id
    refine hstep.retried (hunmarked.owned id) (hunmarked.consistent id) (hm.retried id) ?_
      (endsWith (endingClass a) m.endings (by rw [hr']; rfl)) r' hr'
    -- a run that is not there has no ends
    intro hnone
    refine List.filter_eq_nil_iff.mpr fun e he hid => ?_
    have hknown := hm.known e he
    rw [show e.run = id by simpa using hid, show m.store.runs.find id = none from hnone] at hknown
    cases hknown

theorem Reaches.invariant {m : Retries} (h : Reaches m) : m.Invariant := by
  refine Runs.Reaches.invariant (motive := Invariant) ?_ ?_ h
  · rintro m rfl
    refine ⟨.refl, ?_, ?_⟩
    · exact fun e he => by cases he
    · exact fun id r hr => by cases hr
  · intro m a m' hm hallowed hact
    exact hm.act hallowed hact

/-- The end of every attempt but the last one was retried, at the start of the next one. -/
theorem Invariant.allows_next (hm : m.Invariant) {r : RunRow} (hr : r ∈ m.store.runs.rows)
    {e : Ending} (he : e ∈ m.endings) (hrun : e.run = r.id) {b : AttemptRow}
    (hb : b ∈ m.store.attemptsOf r.id) (hlt : e.number < b.number) :
    ∃ c ∈ m.store.attemptsOf r.id, c.number = e.number + 1 ∧ Supported c.startedAt ∧
      e.Allows r.snapshot c.startedAt := by
  have hunmarked : Store.Reachable Store.unmarkedRetries m.store :=
    hm.store.mono fun _ _ => Store.unmarkedRetries_of_systemOp
  have hconsistent := hunmarked.consistent r.id r (Table.find_of_mem hr)
  rcases (hm.retried r.id r (Table.find_of_mem hr)).next e
    (List.mem_filter.mpr ⟨he, by simpa using hrun⟩) with ⟨hlast, -⟩ | hnext
  · have hle : b.number ≤ (m.store.attemptsOf r.id).length :=
      (number_le_length hconsistent.numbers hb).2
    omega
  · exact hnext

/-- An attempt after the first one follows the retried end of the one before it. -/
theorem Invariant.allows_previous (hm : m.Invariant) {r : RunRow} (hr : r ∈ m.store.runs.rows)
    {b : AttemptRow} (hb : b ∈ m.store.attemptsOf r.id) (hlt : 1 < b.number) :
    ∃ a ∈ m.store.attemptsOf r.id, ∃ e ∈ m.endings, e.run = r.id ∧ a.number = e.number ∧
      e.number + 1 = b.number ∧ e.finishedAt = a.finishedAt ∧ Supported b.startedAt ∧
      e.Allows r.snapshot b.startedAt := by
  have hunmarked : Store.Reachable Store.unmarkedRetries m.store :=
    hm.store.mono fun _ _ => Store.unmarkedRetries_of_systemOp
  have hconsistent := hunmarked.consistent r.id r (Table.find_of_mem hr)
  have hbound := (number_le_length hconsistent.numbers hb).2
  -- the attempt before it is there, and it is not active
  obtain ⟨a, ha, hnumber⟩ :=
    exists_number hconsistent.numbers (k := b.number - 1) (by omega) (by omega)
  have hinactive : a.state.isActive = false := by
    rw [← Bool.not_eq_true]
    intro hactive
    have hlast := RunRow.Retried.number_of_active hconsistent ha hactive
    omega
  obtain ⟨e, he, henumber, hfinished⟩ :=
    (hm.retried r.id r (Table.find_of_mem hr)).ended a ha hinactive
  obtain ⟨hmem, hid⟩ := List.mem_filter.mp he
  have hrun : e.run = r.id := by simpa using hid
  obtain ⟨c, hc, hcnumber, hsupported, hallows⟩ := hm.allows_next hr hmem hrun hb (by omega)
  obtain rfl : c = b := eq_of_number_eq hconsistent.numbers hb hc (by omega)
  exact ⟨a, ha, e, hmem, hrun, henumber.symm, by omega, hfinished, hsupported, hallows⟩

/-- **Retries are bounded and never early.** In every run of the adapter over the store, a run has
at most one attempt more than its policy has retries; no attempt follows one that has succeeded, was
cancelled, failed for its configuration or was interrupted; and an attempt does not start before the
one before it has finished and the delay of the policy has passed. Fixed delays are all the same,
exponential ones double up to the cap, as long as the factor fits 32 bits, and neither kind
decreases. -/
theorem retries_bounded_and_never_early {m : Retries} (h : Reaches m) {r : RunRow}
    (hr : r ∈ m.store.runs.rows) {d : JobDefinition} (hd : r.snapshot.definition = some d) :
    (m.store.attemptsOf r.id).length ≤ d.policy.retries + 1 ∧
    (∀ e ∈ m.endings, e.run = r.id → e.cls = .succeeded ∨ e.cls = .cancelled ∨
      e.cls = .configuration ∨ e.cls = .interruptedUnknown →
      ∀ b ∈ m.store.attemptsOf r.id, b.number ≤ e.number) ∧
    (∀ b ∈ m.store.attemptsOf r.id, 1 < b.number → ∃ a ∈ m.store.attemptsOf r.id,
      a.number + 1 = b.number ∧ ∃ t, a.finishedAt = some t ∧
        t + d.policy.delayAfter a.number ≤ b.startedAt) ∧
    (∀ k, d.policy.delayAfter k = match d.policy.backoff with
      | .fixed => min d.policy.retryDelay d.policy.retryCap
      | .exponential => min (d.policy.retryDelay * (if k ≤ 32 then 2 ^ (k - 1) else 2 ^ 32 - 1))
          d.policy.retryCap) ∧
    ∀ k, d.policy.delayAfter k ≤ d.policy.delayAfter (k + 1) := by
  have hm := h.invariant
  have hunmarked : Store.Reachable Store.unmarkedRetries m.store :=
    hm.store.mono fun _ _ => Store.unmarkedRetries_of_systemOp
  have hconsistent := hunmarked.consistent r.id r (Table.find_of_mem hr)
  refine ⟨?_, ?_, ?_, ?_, ?_⟩
  · -- the last attempt follows a retried end, whose number is one of the retries
    by_contra hmany
    have hmany : ¬ (m.store.view r.id).attempts.length ≤ d.policy.retries + 1 := hmany
    obtain ⟨last, hlast, hnumber⟩ :=
      exists_number hconsistent.numbers (k := (m.store.view r.id).attempts.length) (by omega)
        (le_refl _)
    obtain ⟨a, -, e, -, -, -, henumber, -, hsupported, hallows⟩ :=
      hm.allows_previous hr hlast (by omega)
    have hbound := (hallows.spec hsupported hd).2.1
    omega
  · intro e he hrun hcls b hb
    by_contra hlt
    obtain ⟨c, -, -, hsupported, hallows⟩ := hm.allows_next hr he hrun hb (by omega)
    rcases (hallows.spec hsupported hd).2.2.1 with hknown | ⟨htimeout, -⟩
    · simp [hknown] at hcls
    · simp [htimeout] at hcls
  · intro b hb hlt
    obtain ⟨a, ha, e, -, -, hanumber, henumber, hfinished, hsupported, hallows⟩ :=
      hm.allows_previous hr hb hlt
    obtain ⟨-, -, -, t, ht, hdelay⟩ := hallows.spec hsupported hd
    refine ⟨a, ha, by omega, t, hfinished.symm.trans ht, ?_⟩
    rw [hanumber]
    exact hdelay
  · intro k
    unfold ExecutionPolicy.delayAfter
    cases hbackoff : d.policy.backoff with
    | fixed => rfl
    | exponential => exact retryDelay_eq _ _ k
  · intro k
    exact retryDelay_mono _ _ _ (Nat.le_succ k)

/-! ## Fixed runs -/

/-- The process ends with an error. -/
def failure : ExecutionOutcome :=
  ⟨.failedRetryable, some 1, none, none, "process exited with status " ++ "1", 0⟩

/-- Completions with that outcome, and clock readings that are timestamps. -/
def checkFailures (_ : Retries) : RetryAction → Bool
  | .complete _ _ outcome now =>
    outcome.kind = failure.kind && outcome.reason = failure.reason && Supported now
  | .other (.admitRuns _ _ now _) => Supported now
  | .other _ => true

theorem allowed_of_checkFailures (m : Retries) (a : RetryAction)
    (h : checkFailures m a = true) : m.allowed a := by
  cases a with
  | complete run number outcome now =>
    simp only [checkFailures, Bool.and_eq_true, decide_eq_true_eq] at h
    obtain ⟨⟨hkind, hreason⟩, hnow⟩ := h
    refine ⟨?_, hnow⟩
    unfold ExecutionOutcome.Reported
    rw [hkind]
    exact ⟨"1", Or.inl hreason⟩
  | other op =>
    cases op with
    | admitRuns prepared lifetime now guard =>
      have hnow : Supported now := of_decide_eq_true h
      exact hnow
    | _ => trivial

def twoRetries (backoff : BackoffMode) : JobDefinition :=
  ⟨.every 3600000000 0, { ExecutionPolicy.default with retries := 2, backoff := backoff },
    .retain, "true"⟩

def retriedTwice (backoff : BackoffMode) : Snapshot := .job (twoRetries backoff)

/-- A manual run fails, and fails again when it is retried after ten seconds; the third attempt is
started at the given time. -/
def thirdAttempt (backoff : BackoffMode) (now : Int) : List RetryAction :=
  [.other (.createJob ⟨1, "job", none, "[]", true, retriedTwice backoff, 0, 0⟩),
   .other (.beginLifetime 2 0),
   .other (.enqueueManual 1 1 (retriedTwice backoff) 3 0),
   .other (.admitRuns (fun _ => some (retriedTwice backoff)) 2 0 1),
   .complete 3 1 failure 0,
   .other (.admitRuns (fun _ => some (retriedTwice backoff)) 2 10000000 1),
   .complete 3 2 failure 10000000,
   .other (.admitRuns (fun _ => some (retriedTwice backoff)) 2 now 1)]

/-- **With fixed backoff the delay does not double**: the third attempt starts ten seconds after the
second one has failed. -/
theorem fixed_backoff_does_not_double :
    ∃ m, Reaches m ∧ ∃ r ∈ m.store.runs.rows, ∃ d, r.snapshot.definition = some d ∧
      ∃ a ∈ m.store.attemptsOf r.id, ∃ b ∈ m.store.attemptsOf r.id, b.number = a.number + 1 ∧
        ∃ t, a.finishedAt = some t ∧
          b.startedAt < t + min (d.policy.retryDelay * 2 ^ (a.number - 1)) d.policy.retryCap := by
  exact @Runs.exists_reaches _ _ act allowed (· = initial) checkFailures allowed_of_checkFailures
    (thirdAttempt .fixed 20000000) initial rfl _ _ (by decide +kernel)

/-- With exponential backoff the third attempt waits for twenty seconds. -/
theorem retries_bounded_exponential :
    ∃ m, Reaches m ∧ ∃ r ∈ m.store.runs.rows, (m.store.attemptsOf r.id).length = 3 ∧
      ∃ a ∈ m.store.attemptsOf r.id, a.number + 1 = 3 ∧ ∃ t, a.finishedAt = some t ∧
        ∃ b ∈ m.store.attemptsOf r.id, b.number = 3 ∧ t + 20000000 ≤ b.startedAt := by
  obtain ⟨m, hm, r, hr, hd, hlength, b, hb, hbnumber⟩ := @Runs.exists_reaches _ _ act allowed
    (· = initial) checkFailures allowed_of_checkFailures (thirdAttempt .exponential 30000000)
      initial
    rfl (fun m => ∃ r ∈ m.store.runs.rows,
      r.snapshot.definition = some (twoRetries .exponential) ∧
        (m.store.attemptsOf r.id).length = 3 ∧ ∃ b ∈ m.store.attemptsOf r.id, b.number = 3) _
    (by decide +kernel)
  obtain ⟨-, -, hdelay, -⟩ := retries_bounded_and_never_early hm hr hd
  obtain ⟨a, ha, hanumber, t, hfinished, hle⟩ := hdelay b hb (by omega)
  refine ⟨m, hm, r, hr, hlength, a, ha, by omega, t, hfinished, b, hb, hbnumber, ?_⟩
  have htwo : a.number = 2 := by omega
  rw [htwo] at hle
  exact hle

end Retries

end Locron
