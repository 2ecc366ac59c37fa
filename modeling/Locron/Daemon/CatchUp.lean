import Locron.Daemon.Cursors
import Locron.Schedule.Order
import Locron.Store.CatchUp
import Locron.Store.Consistency

set_option autoImplicit false

/-! # Catch-up runs start in the order of their nominal times

The order in which catch-up runs start is the order in which they were queued. That is the order of
nominal times as long as cursors do not move back: then every later reconciliation of a job selects
later times. An edit that carries back an older cursor makes the daemon queue the same times again,
and they start after later ones.
-/

namespace Locron

/-- The machine, with the catch-up runs that were started: each row as it was admitted, with the
number of the attempt, in the order of admission. -/
structure Starts where
  world : World
  started : List (RunRow × Nat)

namespace Starts

def initial (clock : ClockSample) : Starts := ⟨.initial clock, []⟩

def startedBy (s : Store) : Action → List (RunRow × Nat)
  | .other (.admitRuns prepared lifetime now guard) =>
    match s.admitRuns prepared lifetime now guard with
    | .error _ => []
    | .ok (admitted, _) => admitted.filter (fun x => x.1.trigger = .catchUp)
  | _ => []

def act (host : Host) (m : Starts) (a : Action) : Option Starts :=
  (m.world.act host a).map (fun w => ⟨w, m.started ++ startedBy m.world.store a⟩)

/-- The states of the runs from an empty database, in which every action meets the condition. -/
def Reaches (host : Host) (allowed : World → Action → Prop) : Starts → Prop :=
  Runs.Reaches (act host) (fun m => allowed m.world) (fun m => ∃ clock, m = initial clock)

/-- Attempts of one run, or of two runs of which the first has the earlier nominal time. -/
def InOrder (r r' : RunRow) : Prop :=
  (r.id = r'.id ∧ r.nominal = r'.nominal) ∨ r.NominalBefore r'

/-- Of each job, the catch-up runs were started in the order of their nominal times. -/
def StartedInOrder (m : Starts) : Prop :=
  m.started.Pairwise (fun x y => x.1.jobId = y.1.jobId → InOrder x.1 y.1)

/-- The action carries no older cursor than a job has, no retry with the mark of a quarantine, and
reconciles a calendar expression in a zone that resolves wall clocks in order. -/
structure Orderly (host : Host) (w : World) (a : Action) : Prop where
  forward : w.forwardEdits a
  unmarked : ∀ op, a = .other op → Store.unmarkedRetries w.store op
  inOrder : ∀ ids p job rest d compiled, a = .reconcileJob ids → w.pass = some p →
    p.jobs = some (job :: rest) → job.definition.definition = some d →
    d.schedule.compile host.zones host.systemZone = .ok compiled →
    compiled.InOrder host.zones host.localZone

/-! ## The invariant -/

/-- The nominal time of the row is behind the cursor of its job. -/
def Behind (s : Store) (r : RunRow) : Prop :=
  ∃ t c, r.nominal = some t ∧ s.cursorOf r.jobId = some c ∧ t ≤ c

structure Invariant (m : Starts) : Prop where
  store : Store.Reachable Store.unmarkedRetries m.world.store
  queued : m.world.store.CatchUpsInOrder
  behind : ∀ r ∈ m.world.store.runs.rows, r.trigger = .catchUp → Behind m.world.store r
  startedBehind : ∀ x ∈ m.started, Behind m.world.store x.1
  /-- what is left to start comes after what was started -/
  left : ∀ x ∈ m.started, ∀ r ∈ m.world.store.runs.rows, r.trigger = .catchUp →
    r.jobId = x.1.jobId → r.state.isTerminal = false → InOrder x.1 r
  ordered : m.StartedInOrder

variable {host : Host} {w w' : World} {m m' : Starts} {a : Action} {s s' : Store}

theorem Behind.advance {r r' : RunRow} (h : Behind s r) (hadvance : Store.CursorsAdvance s s')
    (hnominal : r'.nominal = r.nominal) (hjob : r'.jobId = r.jobId) : Behind s' r' := by
  obtain ⟨t, c, ht, hc, hle⟩ := h
  obtain ⟨c', hc', hle'⟩ := hadvance _ c hc
  exact ⟨t, c', hnominal.trans ht, by rw [hjob]; exact hc', hle.trans hle'⟩

theorem mem_startedBy {x : RunRow × Nat} (h : x ∈ startedBy s a) :
    ∃ now, x.1 ∈ s.runs.rows ∧ s.eligible now x.1 = true ∧ x.1.trigger = .catchUp := by
  unfold startedBy at h
  split at h
  · next prepared lifetime now guard =>
    split at h
    · cases h
    next admitted s' hadmitted =>
    obtain ⟨hx, htrigger⟩ := List.mem_filter.mp h
    obtain ⟨hmem, heligible⟩ := Store.eligible_of_admitted hadmitted hx
    exact ⟨now, hmem, heligible, by simpa using htrigger⟩
  · cases h

/-- A finished run does not come back: unfinished rows continue unfinished ones. -/
theorem lasting_of_commits (hs : Store.Reachable Store.unmarkedRetries w.store)
    (h : World.Commits host w a s') {r r' : RunRow} (hr : r ∈ w.store.runs.rows)
    (hr' : r' ∈ s'.runs.rows) (hid : r'.id = r.id) (hlasting : r'.state.isTerminal = false) :
    r.state.isTerminal = false := by
  rcases h.applies with rfl | ⟨op, happly, -⟩
  · rw [← w.store.runs.eq_of_key_eq hr' hr hid]
    exact hlasting
  rw [← Bool.not_eq_true]
  intro hterminal
  have hfind : s'.runs.find r.id = some r' := hid ▸ Table.find_of_mem hr'
  rcases hs.keepsFinished happly r hr hterminal with hnone | ⟨r₁, hr₁, hstate, -⟩
  · rw [hfind] at hnone
    cases hnone
  rw [hfind, Option.some.injEq] at hr₁
  rw [hr₁, hstate, hterminal] at hlasting
  cases hlasting

theorem anyOp_of_unmarked (h : Store.Reachable Store.unmarkedRetries s) :
    Store.Reachable Store.anyOp s :=
  h.mono fun _ _ _ => trivial

/-- The next state is reached without a marked retry. -/
theorem reachable_of_commits (hs : Store.Reachable Store.unmarkedRetries w.store)
    (hallowed : Orderly host w a) (h : World.Commits host w a s') :
    Store.Reachable Store.unmarkedRetries s' := by
  rcases h.applies with rfl | ⟨op, happly, hother⟩
  · exact hs
  refine hs.tail ⟨op, ?_, happly⟩
  cases op with
  | completeAttempt c => exact hallowed.unmarked _ (hother c rfl)
  | _ => trivial

section Step

variable (hm : m.Invariant) (h : World.Commits host m.world a s')

include hm h

/-- A catch-up row continues one from before, or it is new and later than the old cursor. -/
theorem row_of_commits {r' : RunRow} (hr' : r' ∈ s'.runs.rows) (htrigger : r'.trigger = .catchUp) :
    (∃ r ∈ m.world.store.runs.rows, r.SameRun r') ∨
      ∃ c c' t, m.world.store.cursorOf r'.jobId = some c ∧ s'.cursorOf r'.jobId = some c' ∧
        r'.nominal = some t ∧ c < t ∧ t ≤ c' := by
  rcases h.rows (anyOp_of_unmarked hm.store) hr' (by simp [htrigger]) with
    hold | ⟨p, job, ids, d, r, o, -, hmaterializes, hr, ho, hjob, -, hnominal, -⟩
  · exact Or.inl hold
  obtain ⟨d', r₁, result, ids', -, -, hcommit⟩ := hmaterializes.commit
  obtain ⟨-, hbefore, hafter⟩ :=
    Store.cursorsAdvance_of_materialize hmaterializes.behind hcommit
  obtain ⟨hlow, hhigh⟩ := Pass.reconciliation_between hr o ho
  rw [hjob]
  exact Or.inr ⟨job.cursor, p.sample.wall, o.nominal, hbefore, hafter, hnominal, hlow, hhigh⟩

/-- **The queue stays in order.** -/
theorem queued_of_commits (hallowed : Orderly host m.world a) : s'.CatchUpsInOrder := by
  have hreachable := anyOp_of_unmarked hm.store
  by_cases hpass : ∃ p job ids, a = .reconcileJob ids ∧ World.Materializes host m.world p job s'
  · obtain ⟨p, job, ids, ha, hmaterializes⟩ := hpass
    obtain ⟨rest, hjobs⟩ := hmaterializes.next
    obtain ⟨d, r, result, ids', hd, hr, hcommit⟩ := hmaterializes.commit
    obtain ⟨-, hbefore, -⟩ := Store.cursorsAdvance_of_materialize hmaterializes.behind hcommit
    obtain ⟨compiled, hcompiled, hreconcile⟩ := Pass.reconciliation_ok hr
    have hzone := hallowed.inOrder ids p job rest d compiled ha hmaterializes.pass hjobs hd
      hcompiled
    refine hm.queued.materialize hreachable.linked ?_ ?_ hcommit
    · exact Pass.scheduledRuns_sorted (CompiledSchedule.selected_sorted hzone hreconcile)
    -- what was queued is behind the cursor, what is queued now is not
    intro row hrow htrigger hjob run hrun
    obtain ⟨t, c, ht, hc, hle⟩ := hm.behind row hrow htrigger
    rw [hjob, hbefore, Option.some.injEq] at hc
    obtain ⟨o, ho, id, rfl⟩ := Pass.mem_scheduledRuns hrun
    have hlow := (Pass.reconciliation_between hr o ho).1
    have hexpected : job.cursor = c := hc
    exact ⟨t, ht, show t < o.nominal by omega⟩
  · refine hm.queued.of_continues fun r' hr' htrigger => ?_
    rcases h.rows hreachable hr' (by simp [htrigger]) with
      hold | ⟨p, job, ids, -, -, -, ha, hmaterializes, -⟩
    · exact hold
    · exact absurd ⟨p, job, ids, ha, hmaterializes⟩ hpass

/-- What an earlier start left, the next state leaves: new rows are later than every cursor so
far. -/
theorem inOrder_of_commits {x r' : RunRow} (hbehind : Behind m.world.store x)
    (hleft : ∀ r ∈ m.world.store.runs.rows, r.trigger = .catchUp → r.jobId = x.jobId →
      r.state.isTerminal = false → InOrder x r)
    (hr' : r' ∈ s'.runs.rows) (htrigger : r'.trigger = .catchUp) (hjob : r'.jobId = x.jobId)
    (hlasting : r'.state.isTerminal = false) : InOrder x r' := by
  rcases row_of_commits hm h hr' htrigger with
    ⟨r, hr, hsame⟩ | ⟨c, c', t, hc, -, ht, hlow, -⟩
  · rcases hleft r hr (hsame.trigger ▸ htrigger) (hsame.jobId ▸ hjob)
      (lasting_of_commits hm.store h hr hr' hsame.id hlasting) with ⟨hid, hnominal⟩ | hbefore
    · exact Or.inl ⟨hid.trans hsame.id.symm, hnominal.trans hsame.nominal.symm⟩
    · exact Or.inr (hbefore.congr rfl hsame.nominal)
  · obtain ⟨t₀, c₀, ht₀, hc₀, hle⟩ := hbehind
    rw [← hjob, hc, Option.some.injEq] at hc₀
    exact Or.inr ⟨t₀, t, ht₀, ht, by omega⟩

/-- What an admission leaves comes after what it starts. -/
theorem left_of_startedBy {x : RunRow × Nat} (hx : x ∈ startedBy m.world.store a) {r' : RunRow}
    (hr' : r' ∈ s'.runs.rows) (htrigger : r'.trigger = .catchUp) (hjob : r'.jobId = x.1.jobId)
    (hlasting : r'.state.isTerminal = false) : InOrder x.1 r' := by
  obtain ⟨now, hmem, heligible, hcatchUp⟩ := mem_startedBy hx
  refine inOrder_of_commits hm h (hm.behind x.1 hmem hcatchUp) ?_ hr' htrigger hjob hlasting
  intro r hr htrigger hjob hlasting
  rcases hm.queued.before_of_eligible hmem heligible hcatchUp hr htrigger hjob hlasting
    with heq | hbefore
  · exact Or.inl ⟨congrArg _ heq, congrArg _ heq⟩
  · exact Or.inr hbefore

end Step

/-- What an action starts comes after what was started, and is in order itself. -/
theorem ordered_startedBy (hm : m.Invariant) :
    (m.started ++ startedBy m.world.store a).Pairwise
      (fun x y => x.1.jobId = y.1.jobId → InOrder x.1 y.1) := by
  have hlasting : ∀ {now : Int} {r : RunRow}, m.world.store.eligible now r = true →
      r.state.isTerminal = false := fun heligible =>
    RunRow.not_terminal_of_pending (Store.pending_of_eligible heligible)
  refine List.pairwise_append.mpr ⟨hm.ordered, ?_, ?_⟩
  · refine List.pairwise_of_forall_mem_list fun x hx y hy hjob => ?_
    obtain ⟨now, hmem, heligible, hcatchUp⟩ := mem_startedBy hx
    obtain ⟨now', hmem', heligible', hcatchUp'⟩ := mem_startedBy hy
    rcases hm.queued.before_of_eligible hmem heligible hcatchUp hmem' hcatchUp' hjob.symm
      (hlasting heligible') with heq | hbefore
    · exact Or.inl ⟨congrArg _ heq, congrArg _ heq⟩
    · exact Or.inr hbefore
  · intro x hx y hy hjob
    obtain ⟨now, hmem, heligible, hcatchUp⟩ := mem_startedBy hy
    exact hm.left x hx y.1 hmem hcatchUp hjob.symm (hlasting heligible)

theorem Invariant.act (hm : m.Invariant) (hallowed : Orderly host m.world a)
    (hact : m.act host a = some m') : m'.Invariant := by
  obtain ⟨w', hw', rfl⟩ := Option.map_eq_some_iff.mp hact
  have hcommits := World.commits_of_act hw'
  have hadvance := World.cursorsAdvance_of_act hallowed.forward hw'
  refine ⟨reachable_of_commits hm.store hallowed hcommits, queued_of_commits hm hcommits hallowed,
    ?_, ?_, ?_, ordered_startedBy hm⟩
  · intro r' hr' htrigger
    rcases row_of_commits hm hcommits hr' htrigger with
      ⟨r, hr, hsame⟩ | ⟨c, c', t, -, hc', ht, -, hhigh⟩
    · rw [hsame.trigger] at htrigger
      exact (hm.behind r hr htrigger).advance hadvance hsame.nominal hsame.jobId
    · exact ⟨t, c', ht, hc', hhigh⟩
  · intro x hx
    rcases List.mem_append.mp hx with hx | hx
    · exact (hm.startedBehind x hx).advance hadvance rfl rfl
    · obtain ⟨now, hmem, -, hcatchUp⟩ := mem_startedBy hx
      exact (hm.behind x.1 hmem hcatchUp).advance hadvance rfl rfl
  · intro x hx r' hr' htrigger hjob hlasting
    rcases List.mem_append.mp hx with hx | hx
    · exact inOrder_of_commits hm hcommits (hm.startedBehind x hx) (hm.left x hx) hr' htrigger hjob
        hlasting
    · exact left_of_startedBy hm hcommits hx hr' htrigger hjob hlasting

/-- **Catch-up runs start one after the other.** No state admits a catch-up run while an earlier run
of its job is unfinished; and in every run in which no action carries back an older cursor, the
catch-up runs of a job are started in strictly increasing nominal order, retries of a run apart. -/
theorem catchUps_start_in_order :
    (∀ (s : Store) prepared lifetime now guard admitted s',
      s.admitRuns prepared lifetime now guard = .ok (admitted, s') →
      ∀ x ∈ admitted, x.1.trigger = .catchUp → ∀ r ∈ s.runs.rows,
        r.jobId = x.1.jobId → r.queueSequence < x.1.queueSequence → r.state.isTerminal = true) ∧
    ∀ m, Reaches host (Orderly host) m → m.StartedInOrder := by
  constructor
  · intro s prepared lifetime now guard admitted s' hadmitted x hx htrigger r hr hjob hlt
    obtain ⟨-, heligible⟩ := Store.eligible_of_admitted hadmitted hx
    exact Store.terminal_of_eligible heligible htrigger hr hjob hlt
  · intro m h
    refine (Runs.Reaches.invariant (motive := Invariant) ?_ ?_ h).ordered
    · rintro m ⟨clock, rfl⟩
      refine ⟨.refl, ?_, ?_, ?_, ?_, List.Pairwise.nil⟩
      · exact fun r hr => by cases hr
      · exact fun r hr => by cases hr
      · exact fun x hx => by cases hx
      · exact fun x hx => by cases hx
    · intro m a m' hm hallowed hact
      exact hm.act hallowed hact

/-! ## Fixed runs -/

theorem exists_reaches (host : Host) (allowed : World → Action → Prop)
    (check : World → Action → Bool) (hcheck : ∀ w a, check w a = true → allowed w a)
    (actions : List Action) (clock : ClockSample) (P : Starts → Prop) [DecidablePred P]
    (h : (Runs.perform (Starts.act host) (fun m => check m.world) actions (initial clock)).any
      (fun m => P m) = true) : ∃ m, Reaches host allowed m ∧ P m :=
  Runs.exists_reaches (fun m => check m.world) (fun m => hcheck m.world) actions ⟨clock, rfl⟩ P h

theorem inOrder_utcHost (compiled : CompiledSchedule) :
    compiled.InOrder World.utcHost.zones World.utcHost.localZone := by
  cases compiled with
  | cron e timezone =>
    intro zone hzone
    cases timezone with
    | «local» =>
      cases hzone
      exact Zone.utc_resolvesInOrder
    | iana name => cases hzone
  | _ => trivial

/-- No completion retries with the mark of a quarantine. -/
def checkUnmarked : Action → Bool
  | .other (.completeAttempt c) => !c.retry.isSome || c.reason ≠ terminationUnconfirmed
  | _ => true

theorem unmarked_of_check (h : checkUnmarked a = true) (op : Op) (ha : a = .other op) :
    Store.unmarkedRetries s op := by
  subst ha
  cases op with
  | completeAttempt c =>
    intro hretry
    simpa [checkUnmarked, hretry] using h
  | _ => trivial

/-- No edit carries an older cursor. -/
def checkForward (w : World) (a : Action) : Bool :=
  (w.plannedUpdates a).all (fun x => (w.store.cursorOf x.2.id).all (fun c => c ≤ x.2.cursor))

theorem forwardEdits_of_check (h : checkForward w a = true) : w.forwardEdits a := by
  intro x hx c hc
  have hall := List.all_eq_true.mp h x hx
  rw [hc] at hall
  simpa using hall

/-- An hourly job whose missed hours are all made up for. -/
def catchingUp : JobDefinition :=
  ⟨.every 3600000000 0, { ExecutionPolicy.default with missedRun := .all }, .retain, "true"⟩

/-- A daemon starts at a time and queues the missed runs of the job. -/
def missedAt (now : Int) (firstRun : Uuid) : List Action :=
  [.restart, .advance ⟨now, now.toNat⟩, .beginPass, .listJobs,
    .reconcileJob (fun i => firstRun + i), .endPass]

def admitOne (now : Int) : Action :=
  .other (.admitRuns (fun _ => some (.job catchingUp)) 2 now 1)

def succeed (run : Uuid) (now : Int) : Action :=
  .other (.completeAttempt ⟨run, 1, now, 0, .succeeded, some 0, none, none, "exited", none⟩)

/-- An editor reads the job, the daemon makes up for two hours, and both runs succeed. -/
def twoHoursMadeUp : List Action :=
  [.other (.createJob ⟨1, "job", none, "[]", true, .job catchingUp, 0, 0⟩), .read 1,
   .other (.beginLifetime 2 0)] ++ missedAt 7200000000 3 ++
  [admitOne 7200000000, succeed 3 7200000000, admitOne 7200000000, succeed 4 7200000000]

/-- **A rename that carries back the cursor starts an hour again**: the first hour is started after
the second one, as another run. -/
theorem renamed_job_starts_out_of_order :
    ∃ m, Reaches World.utcHost (fun w a => w.unchangingEdits a ∧
        ∀ op, a = .other op → Store.unmarkedRetries w.store op) m ∧
      m.started.map (fun x => (x.1.jobId, x.1.id, x.1.nominal))
        = [(1, 3, some 3600000000), (1, 4, some 7200000000), (1, 5, some 3600000000)] ∧
      ¬ m.StartedInOrder := by
  obtain ⟨m, hm, hstarted⟩ := exists_reaches World.utcHost (fun w a => w.unchangingEdits a ∧
      ∀ op, a = .other op → Store.unmarkedRetries w.store op)
    (fun w a => World.checkUnchanging w a && checkUnmarked a)
    (fun w a h => by
      simp only [Bool.and_eq_true] at h
      exact ⟨World.unchangingEdits_of_check w a h.1, unmarked_of_check h.2⟩)
    (twoHoursMadeUp ++ [.update 0 ⟨"renamed", none, "[]", true, catchingUp, 7200000000⟩] ++
      missedAt 7200000001 5 ++ [admitOne 7200000001]) ⟨0, 0⟩
    (fun m => m.started.map (fun x => (x.1.jobId, x.1.id, x.1.nominal))
      = [(1, 3, some 3600000000), (1, 4, some 7200000000), (1, 5, some 3600000000)])
    (by decide +kernel)
  refine ⟨m, hm, hstarted, fun horder => ?_⟩
  -- the order only looks at the listed columns
  have hcolumns : (m.started.map (fun x => (x.1.jobId, x.1.id, x.1.nominal))).Pairwise
      (fun x y => x.1 = y.1 → (x.2.1 = y.2.1 ∧ x.2.2 = y.2.2) ∨
        ∃ t t', x.2.2 = some t ∧ y.2.2 = some t' ∧ t < t') :=
    List.pairwise_map.mpr horder
  rw [hstarted] at hcolumns
  simp at hcolumns

/-- Without the rename the two hours are started in order, and the third one after them. -/
theorem catchUps_start_in_order_three :
    ∃ m, Reaches World.utcHost (Orderly World.utcHost) m ∧
      m.started.map (fun x => x.1.nominal)
        = [some 3600000000, some 7200000000, some 10800000000] ∧ m.StartedInOrder := by
  obtain ⟨m, hm, hstarted⟩ := exists_reaches World.utcHost (Orderly World.utcHost)
    (fun w a => checkForward w a && checkUnmarked a)
    (fun w a h => by
      simp only [Bool.and_eq_true] at h
      exact ⟨forwardEdits_of_check h.1, unmarked_of_check h.2,
        fun _ _ _ _ _ compiled _ _ _ _ _ => inOrder_utcHost compiled⟩)
    (twoHoursMadeUp ++ missedAt 10800000000 5 ++ [admitOne 10800000000]) ⟨0, 0⟩
    (fun m => m.started.map (fun x => x.1.nominal)
      = [some 3600000000, some 7200000000, some 10800000000]) (by decide +kernel)
  exact ⟨m, hm, hstarted, catchUps_start_in_order.2 m hm⟩

end Starts

end Locron
