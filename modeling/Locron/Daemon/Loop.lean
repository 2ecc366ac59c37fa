import Locron.Daemon.World

set_option autoImplicit false

/-! # The event loop

Between two passes the daemon sleeps: until the earliest pending run becomes eligible, but not
longer than the safety interval. A notification ends the sleep early. The query for the earliest
pending run does not ask whether the run can be admitted, and no schedule is consulted.
-/

namespace Locron

namespace JobRecord

/-- The schedule of a job, if its stored definition can be read. -/
def schedule (job : JobRecord) : Option Schedule :=
  job.definition.definition.map (fun d => d.schedule)

def Occurs (host : Host) (job : JobRecord) (o : Int) : Prop :=
  ∃ schedule compiled, job.schedule = some schedule ∧
    schedule.compile host.zones host.systemZone = .ok compiled ∧
    compiled.Occurs host.zones host.localZone o

end JobRecord

/-- The safety interval, in microseconds. -/
def safetyReconciliation : Nat := 30000000

/-- The time from `now` until the earliest pending run becomes eligible, if one is pending. -/
def Store.nextAdmissionDelay (s : Store) (now : Int) : Option Nat :=
  s.earliestPendingEligibleAt.map (fun earliest => (max (saturate (earliest - now)) 0).toNat)

/-- How long the loop sleeps, given the answer of the store. -/
def admissionDelay : Except String (Option Nat) → Nat
  | .ok (some delay) => min delay safetyReconciliation
  | .ok none => safetyReconciliation
  | .error _ => safetyReconciliation

/-- How long the loop sleeps from `now` on, if the store can be read. -/
def Store.sleepFrom (s : Store) (now : Int) : Nat := admissionDelay (.ok (s.nextAdmissionDelay now))

/-! ## The machine -/

inductive Phase where
  | starting
  | passing
  | sleeping
deriving DecidableEq, Repr

/-- A sleep: when it began and how long it may last. The jobs are those that were enabled then; no
component reads them. -/
structure Sleep where
  since : ClockSample
  delay : Nat
  jobs : List JobRecord

structure Loop where
  world : World
  phase : Phase
  sleep : Option Sleep

inductive LoopAction where
  | start
  | sleep (error : Option String)
  | timer
  | notified
  | world (a : Action)

namespace Loop

def beginPass (host : Host) (l : Loop) : Option Loop :=
  (l.world.act host .beginPass).map (fun w => { l with world := w, phase := .passing })

def start (host : Host) (l : Loop) : Option Loop :=
  if l.phase = .starting then l.beginPass host else none

/-- Between passes the loop asks the store how long to sleep. -/
def fallAsleep (l : Loop) (error : Option String) : Option Loop :=
  if l.phase = .passing ∧ l.world.pass.isNone then
    let answer := match error with
      | some e => .error e
      | none => .ok (l.world.store.nextAdmissionDelay l.world.clock.wall)
    some { l with
      phase := .sleeping
      sleep := some ⟨l.world.clock, admissionDelay answer, l.world.store.listJobs false⟩ }
  else none

def timer (host : Host) (l : Loop) : Option Loop :=
  match l.phase, l.sleep with
  | .sleeping, some sleep =>
    if sleep.since.monotonic + sleep.delay ≤ l.world.clock.monotonic then l.beginPass host
    else none
  | _, _ => none

def notified (host : Host) (l : Loop) : Option Loop :=
  if l.phase = .sleeping then l.beginPass host else none

/-- A transaction, a step of the clock, or the next part of a pass; a pass is begun by the loop
only. -/
def inWorld (host : Host) (l : Loop) (a : Action) : Option Loop :=
  match a with
  | .beginPass | .restart => none
  | a => (l.world.act host a).map (fun w => { l with world := w })

def act (host : Host) (l : Loop) : LoopAction → Option Loop
  | .start => l.start host
  | .sleep error => l.fallAsleep error
  | .timer => l.timer host
  | .notified => l.notified host
  | .world a => l.inWorld host a

theorem act_sleep (host : Host) (l : Loop) (error : Option String) :
    l.act host (.sleep error) = l.fallAsleep error := rfl

theorem act_timer (host : Host) (l : Loop) : l.act host .timer = l.timer host := rfl

/-- The loop of a daemon process that has just been started, on whatever database. -/
def Initial (host : Host) (l : Loop) : Prop :=
  ∃ w₀ w, World.Reaches host (fun _ _ => True) w₀ ∧ w₀.act host .restart = some w ∧
    l = ⟨w, .starting, none⟩

/-- The states of the runs of the loop in which every action meets the condition. -/
def Reaches (host : Host) (allowed : Loop → LoopAction → Prop) : Loop → Prop :=
  Runs.Reaches (act host) allowed (Initial host)

/-! ## What an action does -/

section Act

variable {host : Host} {l l' : Loop}

theorem beginPass_eq_some (h : l.beginPass host = some l') : l.world.pass = none ∧
    l'.phase = .passing ∧ l'.sleep = l.sleep ∧ l'.world.store = l.world.store ∧
    l'.world.clock = l.world.clock ∧ l'.world.adapter = l.world.adapter ∧
    l'.world.pass = some (l.world.adapter.beginPass l.world.clock) := by
  obtain ⟨w, hw, rfl⟩ := Option.map_eq_some_iff.mp h
  obtain ⟨w₁, hw₁, rfl⟩ := World.act_eq_some hw
  obtain ⟨hnone, rfl⟩ := World.beginPass_eq_some hw₁
  exact ⟨hnone, rfl, rfl, rfl, rfl, rfl, rfl⟩

theorem exists_beginPass (host : Host) (l : Loop) (h : l.world.pass = none) :
    ∃ l', l.beginPass host = some l' := by
  unfold beginPass World.act
  simp [World.perform, World.beginPass, h]

theorem timer_eq_some : l.timer host = some l' ↔ l.phase = .sleeping ∧ ∃ sleep,
    l.sleep = some sleep ∧ sleep.since.monotonic + sleep.delay ≤ l.world.clock.monotonic ∧
      l.beginPass host = some l' := by
  unfold timer
  split
  · next sleep hphase hsleep =>
    rw [Option.ite_none_right_eq_some]
    constructor
    · exact fun h => ⟨hphase, sleep, hsleep, h⟩
    rintro ⟨-, sleep', hsleep', h⟩
    rw [hsleep] at hsleep'
    cases hsleep'
    exact h
  · next hno =>
    constructor
    · exact fun h => by cases h
    · rintro ⟨hphase, sleep, hsleep, -⟩
      exact absurd hsleep (hno sleep hphase)

theorem fallAsleep_eq_some {error : Option String} (h : l.fallAsleep error = some l') :
    l.phase = .passing ∧ l.world.pass = none ∧ ∃ answer,
      (error = none → answer = .ok (l.world.store.nextAdmissionDelay l.world.clock.wall)) ∧
      l' = { l with
        phase := .sleeping
        sleep := some ⟨l.world.clock, admissionDelay answer, l.world.store.listJobs false⟩ } := by
  obtain ⟨⟨hphase, hpass⟩, heq⟩ := Option.ite_none_right_eq_some.mp h
  cases heq
  refine ⟨hphase, Option.isNone_iff_eq_none.mp hpass, _, ?_, rfl⟩
  rintro rfl
  rfl

end Act

end Loop

/-! ## The length of a sleep -/

namespace Store

variable {s : Store} {now : Int}

theorem earliestPending_cases (s : Store) :
    (s.earliestPendingEligibleAt = none ∧
      ∀ r ∈ s.runs.rows, r.state.isPending = true → False) ∨
    ∃ first ∈ s.runs.rows, first.state.isPending = true ∧
      s.earliestPendingEligibleAt = some first.eligibleAt ∧
      ∀ r ∈ s.runs.rows, r.state.isPending = true → first.eligibleAt ≤ r.eligibleAt := by
  cases h : s.earliestPendingEligibleAt with
  | none =>
    refine Or.inl ⟨rfl, ?_⟩
    intro r hr hpending
    rw [earliestPendingEligibleAt, List.min?_eq_none_iff, List.map_eq_nil_iff,
      List.filter_eq_nil_iff] at h
    exact h r hr hpending
  | some t =>
    obtain ⟨hmem, hleast⟩ := List.min?_eq_some_iff.mp h
    obtain ⟨first, hfirst, rfl⟩ := List.mem_map.mp hmem
    obtain ⟨hrow, hpending⟩ := List.mem_filter.mp hfirst
    refine Or.inr ⟨first, hrow, hpending, rfl, ?_⟩
    intro r hr hpending'
    exact hleast _ (List.mem_map.mpr ⟨r, List.mem_filter.mpr ⟨hr, hpending'⟩, rfl⟩)

/-- **What bounds a sleep**: it is no longer than a time below the safety interval exactly if some
run becomes eligible within that time. -/
theorem sleepFrom_le_iff (s : Store) (now : Int) {d : Nat} (hd : d < safetyReconciliation) :
    s.sleepFrom now ≤ d ↔
      ∃ r ∈ s.runs.rows, r.state.isPending = true ∧ r.eligibleAt ≤ now + d := by
  unfold safetyReconciliation at hd
  rcases earliestPending_cases s with ⟨hnone, hall⟩ | ⟨first, hfirst, hpending, hsome, hleast⟩
  · have hsleep : s.sleepFrom now = safetyReconciliation := by
      simp [sleepFrom, nextAdmissionDelay, hnone, admissionDelay]
    rw [hsleep]
    unfold safetyReconciliation
    constructor
    · intro hle
      omega
    · rintro ⟨r, hr, hp, -⟩
      exact (hall r hr hp).elim
  · have hsleep : s.sleepFrom now =
        min (max (saturate (first.eligibleAt - now)) 0).toNat safetyReconciliation := by
      simp [sleepFrom, nextAdmissionDelay, hsome, admissionDelay]
    have hsaturate : saturate (first.eligibleAt - now) ≤ d ↔ first.eligibleAt - now ≤ d := by
      apply saturate_le_iff
      · unfold i64Min
        omega
      · unfold i64Max
        omega
    calc s.sleepFrom now ≤ d
        ↔ (max (saturate (first.eligibleAt - now)) 0).toNat ≤ d := by
          rw [hsleep, min_le_iff]
          unfold safetyReconciliation
          omega
      _ ↔ saturate (first.eligibleAt - now) ≤ d := by omega
      _ ↔ first.eligibleAt ≤ now + d := by
          rw [hsaturate]
          omega
      _ ↔ ∃ r ∈ s.runs.rows, r.state.isPending = true ∧ r.eligibleAt ≤ now + d := by
          constructor
          · intro hle
            exact ⟨first, hfirst, hpending, hle⟩
          · rintro ⟨r, hr, hp, hle⟩
            exact (hleast r hr hp).trans hle

/-! ## Sleeping while nothing can be done -/

/-- No pending run can be admitted: it is not eligible, its job has reached its limit, or there is
no capacity. -/
def Blocked (s : Store) (now : Int) (available : Nat) : Prop :=
  ∀ r ∈ s.runs.rows, r.state.isPending = true →
    s.eligible now r = false ∨ ¬ s.HasRoom r ∨ s.capacity available = 0

/-- No occurrence of an enabled job is waiting to be materialized. -/
def NothingDue (host : Host) (s : Store) (now : Int) : Prop :=
  ∀ job ∈ s.listJobs false, ∀ o, job.Occurs host o → job.cursor < o → now < o

theorem Blocked.admits_nothing {available : Nat} (h : s.Blocked now available)
    {prepared : Uuid → Option Snapshot} {lifetime : Uuid} {admitted : List (RunRow × Nat)}
    {s' : Store} (hadmits : s.admitRuns prepared lifetime now available = .ok (admitted, s')) :
    admitted = [] ∧ s' = s := by
  rcases admitRuns_ok hadmits with hnothing | ⟨selected, hselected, hcapacity, rfl, hstart⟩
  · exact hnothing
  have hnil : selected = [] := by
    rw [List.eq_nil_iff_forall_not_mem]
    intro r hr
    obtain ⟨hrow, heligible, hroom⟩ := hselected r hr
    have hpending : r.state.isPending = true := by
      simp only [eligible, Bool.and_eq_true] at heligible
      exact heligible.1.1.1.1.1
    rcases h r hrow hpending with hnot | hnot | hzero
    · rw [heligible] at hnot
      cases hnot
    · exact hnot hroom
    · exact hcapacity hzero
  subst hnil
  cases hstart
  exact ⟨rfl, rfl⟩

end Store

namespace Loop

/-- The timer goes off without any time passing exactly if the sleep has no length. -/
theorem timer_at_once_iff {host : Host} {l l' : Loop} (h : l.act host (.sleep none) = some l') :
    (∃ l'', l'.act host .timer = some l'') ↔ l.world.store.sleepFrom l.world.clock.wall = 0 := by
  rw [act_sleep] at h
  obtain ⟨-, hpass, answer, hanswer, rfl⟩ := fallAsleep_eq_some h
  rw [hanswer rfl, act_timer]
  constructor
  · rintro ⟨l'', htimer⟩
    obtain ⟨-, sleep, hsleep, hover, -⟩ := timer_eq_some.mp htimer
    cases hsleep
    have hzero : l.world.store.sleepFrom l.world.clock.wall = 0 := by
      change l.world.clock.monotonic + l.world.store.sleepFrom l.world.clock.wall
        ≤ l.world.clock.monotonic at hover
      omega
    exact hzero
  · intro hzero
    obtain ⟨l'', hl''⟩ := exists_beginPass host { l with
      phase := .sleeping
      sleep := some ⟨l.world.clock, l.world.store.sleepFrom l.world.clock.wall,
        l.world.store.listJobs false⟩ } hpass
    refine ⟨l'', timer_eq_some.mpr ⟨rfl, _, rfl, ?_, hl''⟩⟩
    change l.world.clock.monotonic + l.world.store.sleepFrom l.world.clock.wall
      ≤ l.world.clock.monotonic
    omega

/-- **When an idle loop sleeps.** While no run can be admitted, admission does nothing; the loop
then sleeps for a positive time exactly if no pending run has reached its eligibility time, and
otherwise begins pass after pass with no event in between. -/
theorem idle_sleep_positive_iff (host : Host) (l : Loop) (available : Nat) :
    (l.world.store.Blocked l.world.clock.wall available →
      ∀ prepared lifetime admitted s',
        l.world.store.admitRuns prepared lifetime l.world.clock.wall available
          = .ok (admitted, s') → admitted = [] ∧ s' = l.world.store) ∧
    ((l.world.store.Blocked l.world.clock.wall available →
        l.world.store.NothingDue host l.world.clock.wall →
        0 < l.world.store.sleepFrom l.world.clock.wall) ↔
      (l.world.store.Blocked l.world.clock.wall available →
        l.world.store.NothingDue host l.world.clock.wall →
        ∀ r ∈ l.world.store.runs.rows, r.state.isPending = true →
          l.world.clock.wall < r.eligibleAt)) ∧
    ∀ l', l.act host (.sleep none) = some l' →
      ((∃ l'', l'.act host .timer = some l'') ↔
        ¬ 0 < l.world.store.sleepFrom l.world.clock.wall) := by
  have hzero : l.world.store.sleepFrom l.world.clock.wall ≤ 0 ↔ ∃ r ∈ l.world.store.runs.rows,
      r.state.isPending = true ∧ r.eligibleAt ≤ l.world.clock.wall := by
    simpa using l.world.store.sleepFrom_le_iff l.world.clock.wall (d := 0) (by decide)
  have hpositive : 0 < l.world.store.sleepFrom l.world.clock.wall ↔
      ∀ r ∈ l.world.store.runs.rows, r.state.isPending = true →
        l.world.clock.wall < r.eligibleAt := by
    rw [← not_le, hzero]
    push Not
    rfl
  refine ⟨fun hblocked _ _ _ _ hadmits => hblocked.admits_nothing hadmits, ?_, ?_⟩
  · rw [hpositive]
  · intro l' hl'
    rw [timer_at_once_iff hl', Nat.pos_iff_ne_zero, not_not]

/-! ### A run that waits for the one it replaces -/

/-- The loop of the first daemon process. -/
def fresh (clock : ClockSample) : Loop := ⟨.initial clock, .starting, none⟩

theorem exists_reaches (host : Host) (allowed : Loop → LoopAction → Prop)
    (check : Loop → LoopAction → Bool) (hcheck : ∀ l a, check l a = true → allowed l a)
    (actions : List LoopAction) (clock : ClockSample) (P : Loop → Prop) [DecidablePred P]
    (h : (Runs.perform (act host) check actions (fresh clock)).any (fun l => P l) = true) :
    ∃ l, Reaches host allowed l ∧ P l :=
  Runs.exists_reaches check hcheck actions
    ⟨.initial clock, .initial clock, .start ⟨clock, rfl⟩, rfl, rfl⟩ P h

/-- An hourly job that replaces its active run. -/
def replacing : JobDefinition :=
  ⟨.every 3600000000 0, { ExecutionPolicy.default with overlap := .replace }, .retain, "true"⟩

/-- A run has started when another one is requested. -/
def replacedAtWork : List LoopAction :=
  [.world (.other (.createJob ⟨1, "a", none, "[]", true, .job replacing, 0, 0⟩)),
   .world (.other (.beginLifetime 9 0)),
   .world (.other (.enqueueManual 1 1 (.job replacing) 2 0)),
   .start, .world .listJobs, .world (.reconcileJob (fun _ => 5)), .world .endPass,
   .world (.other (.admitRuns (fun _ => some (.job replacing)) 9 0 64)),
   .world (.other (.enqueueManual 1 1 (.job replacing) 3 0))]

/-- **The loop spins**: the new run waits until the run it replaces has ended, and as it is eligible
all the while, the loop does not sleep. -/
theorem replacing_run_spins :
    ∃ l l' l'', Reaches World.utcHost (fun _ _ => True) l ∧
      l.world.store.Blocked l.world.clock.wall 64 ∧
      l.world.store.NothingDue World.utcHost l.world.clock.wall ∧
      l.world.store.sleepFrom l.world.clock.wall = 0 ∧
      l.act World.utcHost (.sleep none) = some l' ∧ l'.act World.utcHost .timer = some l'' ∧
      l''.world.clock = l.world.clock := by
  obtain ⟨l, hl, hclock, hzero, hblocked, hcursor, l', hl', -⟩ := exists_reaches World.utcHost
    (fun _ _ => True) (fun _ _ => true) (fun _ _ _ => trivial) replacedAtWork ⟨0, 0⟩
    (fun l => l.world.clock = ⟨0, 0⟩ ∧ l.world.store.sleepFrom 0 = 0 ∧
      (∀ r ∈ l.world.store.runs.rows, r.state.isPending = true →
        l.world.store.eligible 0 r = false) ∧
      (∀ job ∈ l.world.store.listJobs false, 0 ≤ job.cursor) ∧
      ∃ l', l.act World.utcHost (.sleep none) = some l' ∧ True) (by decide +kernel)
  have hwall : l.world.clock.wall = 0 := by rw [hclock]
  have hsleep : l.world.store.sleepFrom l.world.clock.wall = 0 := by
    rw [hwall]
    exact hzero
  obtain ⟨l'', hl''⟩ := (timer_at_once_iff hl').mpr hsleep
  refine ⟨l, l', l'', hl, ?_, ?_, hsleep, hl', hl'', ?_⟩
  · intro r hr hpending
    rw [hwall]
    exact Or.inl (hblocked r hr hpending)
  · intro job hjob o _ hlt
    rw [hwall]
    exact lt_of_le_of_lt (hcursor job hjob) hlt
  · rw [act_timer] at hl''
    obtain ⟨-, -, -, -, hbegin⟩ := timer_eq_some.mp hl''
    obtain ⟨-, -, -, -, hsame, -, -⟩ := beginPass_eq_some hbegin
    rw [act_sleep] at hl'
    obtain ⟨-, -, answer, -, rfl⟩ := fallAsleep_eq_some hl'
    exact hsame

end Loop

end Locron
