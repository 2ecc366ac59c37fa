import Locron.Lib.Runs
import Locron.Store.Activity

set_option autoImplicit false

/-! # Concurrency limits

Admission counts before it selects: the active attempts against the configured limit and the hard
guard, and the live runs of a job against the limit in the snapshot of each run it looks at. Since
nothing else starts attempts or brings runs to life, what holds after admission holds until the next
one (`Admissions.concurrency_limits`).
-/

namespace Locron

/-- The hard guard: no more than this many attempts are ever configured. -/
def maxGlobalConcurrency : Nat := 64

/-! ## Nothing but admission brings runs to life -/

/-- Occurrences and requests bring no run to life. -/
theorem OverlapStep.live_origin {permits : Permits} {id : Uuid} {v v' : RunView}
    (h : Relation.ReflTransGen (OverlapStep permits id) v v') {r' : RunRow}
    (hr' : v'.run = some r') (hlive : r'.state.isLive = true) :
    ∃ r, v.run = some r ∧ r.state.isLive = true ∧ r.jobId = r'.jobId := by
  refine OverlapStep.had h ?_ ?_ (fun _ _ hbefore => hbefore) hr' ⟨hlive, rfl⟩
  · rintro r hnew ⟨hlive, -⟩
    -- a new row is queued or terminal
    rcases hnew.state with ⟨hqueued, -, -⟩ | ⟨hterminal, -⟩
    · rw [hqueued] at hlive
      cases hlive
    · rw [RunRow.not_live_of_terminal hterminal] at hlive
      cases hlive
  · rintro r now ⟨hlive, -⟩
    cases hlive

/-- **Without a start no run comes to life.** -/
theorem RunStep.live_origin {id : Uuid} {v v' : RunView} (h : RunStep noStarts id v v')
    {r' : RunRow} (hr' : v'.run = some r') (hlive : r'.state.isLive = true) :
    ∃ r, v.run = some r ∧ r.state.isLive = true ∧ r.jobId = r'.jobId := by
  cases h with
  | keep => exact ⟨r', hr', hlive, rfl⟩
  | overlap h => exact OverlapStep.live_origin h hr' hlive
  | start _ _ _ _ _ hmay => exact hmay.elim
  | ready r _ _ _ hstate _ _ =>
    cases hr'
    exact ⟨r, rfl, by rw [hstate]; rfl, rfl⟩
  | complete r c hstate _ =>
    cases hr'
    have hended : c.state.runState.isLive = false := by
      cases hc : c.state with
      | terminationUnconfirmed => exact absurd hc hstate
      | _ => rfl
    rw [show (r.finish c.state.runState c.reason c.now).state.isLive = false from hended] at hlive
    cases hlive
  | quarantine r _ _ _ _ hbefore | requestCancellation r _ hbefore =>
    cases hr'
    exact ⟨r, rfl, hbefore, rfl⟩
  | preExecution r _ _ _ _ =>
    cases hr'
    split at hlive
    · cases hlive
    · next hdead => exact absurd hlive hdead
  | runnerFailure r _ _ _ _ _ _ started hrun _ _ =>
    cases hr'
    subst hrun
    split at hlive
    · cases started <;> cases hlive
    · next hdead => exact absurd hlive hdead
  | interrupt _ now =>
    obtain ⟨r, hr, rfl⟩ := Option.map_eq_some_iff.mp hr'
    split at hlive
    · cases hlive
    next hstale =>
    rw [if_neg hstale]
    exact ⟨r, hr, hlive, rfl⟩
  | delete => cases hr'
  | _ =>
    cases hr'
    cases hlive

namespace Store

section Counts

variable {s s' : Store} {op : Op}

def liveRuns (s : Store) (job : Uuid) : List Uuid :=
  (s.runs.rows.filter (fun r => r.jobId = job && r.state.isLive)).map (fun r => r.id)

theorem length_liveRuns (s : Store) (job : Uuid) : (s.liveRuns job).length = s.liveCount job := by
  rw [liveRuns, List.length_map]
  exact (List.countP_eq_length_filter ..).symm

theorem mem_liveRuns {job : Uuid} {r : RunRow} (hr : r ∈ s.runs.rows) (hjob : r.jobId = job)
    (hlive : r.state.isLive = true) : r.id ∈ s.liveRuns job :=
  List.mem_map.mpr ⟨r, List.mem_filter.mpr ⟨hr, by simp [hjob, hlive]⟩, rfl⟩

def activeKeys (s : Store) : List (Uuid × Nat) :=
  (s.attempts.rows.filter (fun a => a.state.isActive)).map AttemptRow.key

theorem length_activeKeys (s : Store) : s.activeKeys.length = s.activeAttempts := by
  rw [activeKeys, List.length_map]
  exact (List.countP_eq_length_filter ..).symm

theorem mem_activeKeys {key : Uuid × Nat} (h : s.attemptActive key = true) :
    key ∈ s.activeKeys := by
  unfold attemptActive at h
  rw [Option.any_eq_true] at h
  obtain ⟨a, ha, hactive⟩ := h
  exact List.mem_map.mpr
    ⟨a, List.mem_filter.mpr ⟨Table.mem_of_find ha, hactive⟩, Table.key_of_find ha⟩

theorem attemptActive_of_mem {a : AttemptRow} (ha : a ∈ s.attempts.rows)
    (hactive : a.state.isActive = true) : s.attemptActive a.key = true := by
  rw [attemptActive, Table.find_of_mem ha]
  exact hactive

theorem liveCount_le_of_apply (howned : s.Owned) (h : s.apply op = .ok s')
    (hop : ∀ prepared lifetime now guard, op ≠ .admitRuns prepared lifetime now guard)
    (job : Uuid) : s'.liveCount job ≤ s.liveCount job := by
  have hkeys : ∀ r' ∈ s'.runs.rows, (decide (r'.jobId = job) && r'.state.isLive) = true →
      r'.id ∈ s.liveRuns job := by
    intro r' hr' hcond
    simp only [Bool.and_eq_true, decide_eq_true_eq] at hcond
    have hstep := apply_effect howned (permitted_noStarts hop) h r'.id
    obtain ⟨r, hr, hlive, hjob⟩ := hstep.live_origin (Table.find_of_mem hr') hcond.2
    have hid : r.id = r'.id := Table.key_of_find hr
    rw [← hid]
    exact mem_liveRuns (Table.mem_of_find hr) (hjob.trans hcond.1) hlive
  calc s'.liveCount job ≤ (s.liveRuns job).length := Table.count_le_length s'.runs hkeys
    _ = s.liveCount job := length_liveRuns s job

theorem activeAttempts_le_of_apply (howned : s.Owned) (h : s.apply op = .ok s')
    (hop : ∀ prepared lifetime now guard, op ≠ .admitRuns prepared lifetime now guard) :
    s'.activeAttempts ≤ s.activeAttempts := by
  have hkeys : ∀ a' ∈ s'.attempts.rows, a'.state.isActive = true → a'.key ∈ s.activeKeys :=
    fun a' ha' hactive =>
      mem_activeKeys (active_of_apply howned h hop (attemptActive_of_mem ha' hactive))
  calc s'.activeAttempts ≤ s.activeKeys.length := Table.count_le_length s'.attempts hkeys
    _ = s.activeAttempts := length_activeKeys s

end Counts

/-! ## The selection -/

section Selection

variable {s : Store} {prepared : Uuid → Option Snapshot} {capacity : Nat}

theorem selectRounds_length {jobs : List Uuid} {fuel : Nat} {sel sel' : Selection}
    (hsel : sel.selected.length ≤ capacity)
    (h : s.selectRounds prepared capacity jobs fuel sel = .ok sel') :
    sel'.selected.length ≤ capacity := by
  refine selectRounds_induction (motive := fun sel => sel.selected.length ≤ capacity) ?_ hsel h
  intro sel sel' row hroom _ _ hfirst
  have hone := selectFirst_length hfirst
  omega

/-- When a row was selected, its own limit left room beside the live runs of the job and the rows of
the job selected before it. -/
def RoomForEach (s : Store) (selected : List RunRow) : Prop :=
  ∀ before row after, selected = before ++ row :: after →
    ∃ policy, snapshotAdmissionPolicy row.snapshot = .ok policy ∧
      ((s.liveCount row.jobId + before.countP (fun r => r.jobId = row.jobId) : Nat) : Int)
        < perJobLimit policy

theorem selectRounds_rooms {rows : List RunRow} {jobs : List Uuid} {fuel : Nat} {sel : Selection}
    (h : s.selectRounds prepared capacity jobs fuel ⟨rows, []⟩ = .ok sel) :
    s.RoomForEach sel.selected := by
  refine selectRounds_induction (motive := fun sel => s.RoomForEach sel.selected) ?_ ?_ h
  · intro sel sel' row _ hsel _ hfirst before x after hsplit
    unfold selectFirst at hfirst
    dsimp only at hfirst
    split at hfirst
    · cases hfirst
      exact hsel before x after hsplit
    split at hfirst
    · cases hfirst
    next policy hpolicy =>
    split at hfirst
    · next hlt =>
      cases hfirst
      -- the row at the end is the new one, the others were there before
      rcases List.eq_nil_or_concat after with rfl | ⟨front, last, rfl⟩
      · obtain ⟨rfl, hx⟩ := List.append_inj' hsplit rfl
        cases hx
        exact ⟨policy, hpolicy, by exact_mod_cast hlt⟩
      have hfront : sel.selected = before ++ x :: front := by
        have hassoc : sel.selected ++ [row] = (before ++ x :: front) ++ [last] := by
          simpa using hsplit
        exact (List.append_inj' hassoc rfl).1
      exact hsel before x front hfront
    · cases hfirst
      exact hsel before x after hsplit
  · intro before x after hsplit
    simp at hsplit

end Selection

/-! ## One admission -/

section Admission

variable {s s' : Store} {prepared : Uuid → Option Snapshot} {lifetime : Uuid} {now : Int}
  {guard : Nat} {admitted : List (RunRow × Nat)}

theorem activeAttempts_admitRuns
    (h : s.admitRuns prepared lifetime now guard = .ok (admitted, s')) :
    s'.activeAttempts ≤ s.activeAttempts + admitted.length := by
  obtain ⟨-, -, hothers⟩ := admitRuns_ready h
  have hkeys : ∀ a ∈ s'.attempts.rows, a.state.isActive = true →
      a.key ∈ s.activeKeys ++ admitted.map (fun x => (x.1.id, x.2)) := by
    intro a ha hactive
    by_cases hnew : a.key ∈ admitted.map (fun x => (x.1.id, x.2))
    · exact List.mem_append_right _ hnew
    have hafter := attemptActive_of_mem ha hactive
    rw [attemptActive, (hothers a.key hnew).1] at hafter
    exact List.mem_append_left _ (mem_activeKeys hafter)
  calc s'.activeAttempts
      ≤ (s.activeKeys ++ admitted.map (fun x => (x.1.id, x.2))).length :=
        Table.count_le_length s'.attempts hkeys
    _ = s.activeAttempts + admitted.length := by
        rw [List.length_append, length_activeKeys, List.length_map]

/-- No more attempts are admitted than the hard guard and the configured limit leave room for. -/
theorem length_admitRuns (h : s.admitRuns prepared lifetime now guard = .ok (admitted, s')) :
    admitted = [] ∨ (admitted.length ≤ s.capacity guard ∧ s.settings.globalConcurrency ≤ 64) := by
  rcases admitRuns_selection h with ⟨-, hnone, -⟩ | ⟨sel, hrange, -, hsel, hadmitted, -⟩
  · exact Or.inl hnone
  refine Or.inr ⟨?_, hrange.2⟩
  rw [hadmitted, List.length_map]
  exact selectRounds_length (Nat.zero_le _) hsel

theorem liveCount_admitRuns (h : s.admitRuns prepared lifetime now guard = .ok (admitted, s'))
    (job : Uuid) :
    s'.liveCount job ≤ s.liveCount job + admitted.countP (fun x => x.1.jobId = job) := by
  rcases admitRuns_ok h with ⟨rfl, rfl⟩ | ⟨selected, hselected, -, rfl, hstart⟩
  · exact Nat.le_add_right _ _
  have hkeys : ∀ r' ∈ s'.runs.rows, (decide (r'.jobId = job) && r'.state.isLive) = true →
      r'.id ∈ s.liveRuns job ++
        (selected.filter (fun r => r.jobId = job)).map (fun r => r.id) := by
    intro r' hr' hcond
    simp only [Bool.and_eq_true, decide_eq_true_eq] at hcond
    have hfind : (s'.view r'.id).run = some r' := Table.find_of_mem hr'
    by_cases hid : ∃ r ∈ selected, r.id = r'.id
    · obtain ⟨r, hr, hid⟩ := hid
      have hbefore : (s.view r.id).run = some r := Table.find_of_mem (hselected r hr).1
      rw [← hid, view_startAttempts s.nextAttemptNumber (by simp) hstart
        (List.mem_map.mpr ⟨r, hr, rfl⟩), hbefore] at hfind
      have hjob : r.jobId = r'.jobId := by
        rw [← Option.some.inj hfind]
        dsimp only
        split
        · rfl
        · rfl
      refine List.mem_append_right _ (List.mem_map.mpr ⟨r, List.mem_filter.mpr ⟨hr, ?_⟩, hid⟩)
      simp [hjob, hcond.1]
    · rw [view_startAttempts_of_not_mem hstart] at hfind
      · exact List.mem_append_left _ (mem_liveRuns (Table.mem_of_find hfind) hcond.1 hcond.2)
      intro x hx hxid
      obtain ⟨r, hr, rfl⟩ := List.mem_map.mp hx
      exact hid ⟨r, hr, hxid⟩
  calc s'.liveCount job
      ≤ (s.liveRuns job ++ (selected.filter (fun r => r.jobId = job)).map (fun r => r.id)).length :=
        Table.count_le_length s'.runs hkeys
    _ = s.liveCount job + (selected.filter (fun r => r.jobId = job)).length := by
        rw [List.length_append, length_liveRuns, List.length_map]
    _ = s.liveCount job + (selected.map (fun r => (r, s.nextAttemptNumber r.id))).countP
          (fun x => x.1.jobId = job) := by
        rw [List.countP_map, List.countP_eq_length_filter]
        rfl

def lastOf (admitted : List (RunRow × Nat)) (job : Uuid) : Option Snapshot :=
  (admitted.reverse.find? (fun x => x.1.jobId = job)).map (fun x => x.1.snapshot)

theorem liveCount_le_of_lastOf (h : s.admitRuns prepared lifetime now guard = .ok (admitted, s'))
    {job : Uuid} {snapshot : Snapshot} (hlast : lastOf admitted job = some snapshot) :
    ∃ policy, snapshotAdmissionPolicy snapshot = .ok policy ∧
      (s'.liveCount job : Int) ≤ perJobLimit policy := by
  obtain ⟨x, hx, rfl⟩ := Option.map_eq_some_iff.mp hlast
  obtain ⟨hjob, after, before, hsplit, hafter⟩ := List.find?_eq_some_iff_append.mp hx
  have hjob' : x.1.jobId = job := of_decide_eq_true hjob
  have hadmitted : admitted = before.reverse ++ x :: after.reverse := by
    have hrev := congrArg List.reverse hsplit
    simpa using hrev
  rcases admitRuns_selection h with ⟨-, hnone, -⟩ | ⟨sel, -, -, hsel, hmap, -⟩
  · rw [hnone] at hadmitted
    simp at hadmitted
  -- the same split of the selected rows
  have hrows : sel.selected =
      (before.reverse.map Prod.fst) ++ x.1 :: after.reverse.map Prod.fst := by
    have hfst := congrArg (List.map Prod.fst) (hmap.symm.trans hadmitted)
    simpa [Function.comp_def] using hfst
  obtain ⟨policy, hpolicy, hroom⟩ := selectRounds_rooms hsel _ _ _ hrows
  refine ⟨policy, hpolicy, ?_⟩
  have hcount : admitted.countP (fun x => x.1.jobId = job)
      = before.reverse.countP (fun x => x.1.jobId = job) + 1 := by
    have hnone : after.reverse.countP (fun x => x.1.jobId = job) = 0 := by
      refine List.countP_eq_zero.mpr (fun y hy => ?_)
      simpa using hafter y (List.mem_reverse.mp hy)
    rw [hadmitted, List.countP_append, List.countP_cons, hnone, if_pos hjob]
  have hbefore : (before.reverse.map Prod.fst).countP (fun r => r.jobId = x.1.jobId)
      = before.reverse.countP (fun x => x.1.jobId = job) := by
    rw [List.countP_map, hjob']
    rfl
  have hlive := liveCount_admitRuns h job
  rw [hbefore, hjob'] at hroom
  omega

theorem liveCount_le_of_not_lastOf
    (h : s.admitRuns prepared lifetime now guard = .ok (admitted, s')) {job : Uuid}
    (hlast : lastOf admitted job = none) : s'.liveCount job ≤ s.liveCount job := by
  have hnone := List.find?_eq_none.mp (Option.map_eq_none_iff.mp hlast)
  have hcount : admitted.countP (fun x => x.1.jobId = job) = 0 :=
    List.countP_eq_zero.mpr (fun x hx => hnone x (List.mem_reverse.mpr hx))
  have hlive := liveCount_admitRuns h job
  omega

end Admission

end Store

/-! ## Whole runs -/

/-- The database and, as a history that no component reads, the snapshot of each job that was
admitted last. -/
structure Admissions where
  store : Store
  last : Uuid → Option Snapshot

namespace Admissions

def initial : Admissions := ⟨.initial, fun _ => none⟩

/-- Commits an operation; admission is written down. -/
def act (m : Admissions) : Op → Option Admissions
  | .admitRuns prepared lifetime now guard =>
    match m.store.admitRuns prepared lifetime now guard with
    | .error _ => none
    | .ok (admitted, s) => some ⟨s, fun job => Store.lastOf admitted job <|> m.last job⟩
  | op =>
    match m.store.apply op with
    | .error _ => none
    | .ok s => some { m with store := s }

/-- The states that sequences of operations reach, restarts of the daemon among them. -/
abbrev Reaches : Admissions → Prop := Runs.Reaches act (fun _ _ => True) (· = initial)

def WithinLimit (m : Admissions) (job : Uuid) (snapshot : Snapshot) : Prop :=
  ∃ policy, snapshotAdmissionPolicy snapshot = .ok policy ∧
    (m.store.liveCount job : Int) ≤ Store.perJobLimit policy

structure Limited (m : Admissions) : Prop where
  reachable : Store.Reachable Store.anyOp m.store
  guard : m.store.activeAttempts ≤ maxGlobalConcurrency
  perJob : ∀ job snapshot, m.last job = some snapshot → m.WithinLimit job snapshot

theorem act_eq_some {m m' : Admissions} {op : Op} (h : m.act op = some m') :
    (∃ prepared lifetime now guard admitted, op = .admitRuns prepared lifetime now guard ∧
      m.store.admitRuns prepared lifetime now guard = .ok (admitted, m'.store) ∧
      m'.last = fun job => Store.lastOf admitted job <|> m.last job) ∨
    ((∀ prepared lifetime now guard, op ≠ .admitRuns prepared lifetime now guard) ∧
      m.store.apply op = .ok m'.store ∧ m'.last = m.last) := by
  unfold act at h
  split at h
  · next prepared lifetime now guard =>
    split at h
    · cases h
    next admitted s hadmits =>
    cases h
    exact Or.inl ⟨prepared, lifetime, now, guard, admitted, rfl, hadmits, rfl⟩
  · next hop =>
    split at h
    · cases h
    next s happly =>
    cases h
    exact Or.inr ⟨hop, happly, rfl⟩

theorem limited_initial : initial.Limited where
  reachable := .refl
  guard := Nat.zero_le _
  perJob := fun _ _ h => by cases h

/-- The configured limit and the hard guard bound what an admission leaves. -/
theorem activeAttempts_le_max {s s' : Store} {prepared : Uuid → Option Snapshot} {lifetime : Uuid}
    {now : Int} {guard : Nat} {admitted : List (RunRow × Nat)}
    (h : s.admitRuns prepared lifetime now guard = .ok (admitted, s')) :
    (s'.activeAttempts : Int) ≤ max (s.activeAttempts : Int) s.settings.globalConcurrency ∧
      s'.activeAttempts ≤ max s.activeAttempts maxGlobalConcurrency ∧ admitted.length ≤ guard := by
  have hactive := Store.activeAttempts_admitRuns h
  rcases Store.length_admitRuns h with rfl | ⟨hlength, hconfigured⟩
  · simp only [List.length_nil, Nat.add_zero] at hactive ⊢
    omega
  unfold Store.capacity at hlength
  unfold maxGlobalConcurrency
  omega

theorem Limited.act {m m' : Admissions} {op : Op} (h : m.Limited) (hact : m.act op = some m') :
    m'.Limited := by
  rcases act_eq_some hact with ⟨prepared, lifetime, now, guard, admitted, rfl, hadmits, hlast⟩ |
    ⟨hop, happly, hlast⟩
  · refine ⟨h.reachable.tail ⟨.admitRuns prepared lifetime now guard, trivial, ?_⟩, ?_, ?_⟩
    · show (m.store.admitRuns prepared lifetime now guard).map Prod.snd = .ok m'.store
      rw [hadmits]
      rfl
    · have hmax := (activeAttempts_le_max hadmits).2.1
      have hbefore := h.guard
      omega
    · intro job snapshot hsnapshot
      rw [hlast] at hsnapshot
      dsimp only at hsnapshot
      cases hnew : Store.lastOf admitted job with
      | some new =>
        rw [hnew] at hsnapshot
        cases hsnapshot
        exact Store.liveCount_le_of_lastOf hadmits hnew
      | none =>
        rw [hnew] at hsnapshot
        obtain ⟨policy, hpolicy, hlimit⟩ := h.perJob job snapshot hsnapshot
        have hle := Store.liveCount_le_of_not_lastOf hadmits hnew
        exact ⟨policy, hpolicy, by omega⟩
  · have howned := h.reachable.owned
    refine ⟨h.reachable.tail ⟨op, trivial, happly⟩, ?_, ?_⟩
    · exact (Store.activeAttempts_le_of_apply howned happly hop).trans h.guard
    intro job snapshot hsnapshot
    rw [hlast] at hsnapshot
    obtain ⟨policy, hpolicy, hlimit⟩ := h.perJob job snapshot hsnapshot
    have hle := Store.liveCount_le_of_apply howned happly hop job
    exact ⟨policy, hpolicy, by omega⟩

/-- **The concurrency limits hold in every run**: an admission leaves at most as many active
attempts as there were or as are configured, and admits no more than the hard guard leaves; there
are never more active attempts than the hard guard; and the live runs of a job are within the limit
of the snapshot admitted last, which is one unless it allows overlaps. -/
theorem concurrency_limits {m : Admissions} (h : Reaches m) :
    (∀ prepared lifetime now guard admitted s',
      m.store.admitRuns prepared lifetime now guard = .ok (admitted, s') →
        (s'.activeAttempts : Int)
          ≤ max (m.store.activeAttempts : Int) m.store.settings.globalConcurrency ∧
        s'.activeAttempts ≤ maxGlobalConcurrency ∧ admitted.length ≤ guard) ∧
    m.store.activeAttempts ≤ maxGlobalConcurrency ∧
    ∀ job snapshot, m.last job = some snapshot →
      ∃ policy, snapshotAdmissionPolicy snapshot = .ok policy ∧
        (m.store.liveCount job : Int) ≤ Store.perJobLimit policy ∧
        (policy.overlap ≠ .allow → m.store.liveCount job ≤ 1) := by
  have hlimited : m.Limited := Runs.Reaches.invariant (fun _ hs => hs ▸ limited_initial)
    (fun _ _ _ hs _ hact => hs.act hact) h
  refine ⟨?_, hlimited.guard, ?_⟩
  · intro prepared lifetime now guard admitted s' hadmits
    obtain ⟨hconfigured, hguard, hlength⟩ := activeAttempts_le_max hadmits
    have hbefore := hlimited.guard
    exact ⟨hconfigured, by omega, hlength⟩
  · intro job snapshot hsnapshot
    obtain ⟨policy, hpolicy, hlimit⟩ := hlimited.perJob job snapshot hsnapshot
    refine ⟨policy, hpolicy, hlimit, fun hoverlap => ?_⟩
    rw [Store.perJobLimit, if_neg hoverlap] at hlimit
    omega

def twoAtOnce : Snapshot :=
  .job ⟨.every 3600000000 0,
    { ExecutionPolicy.default with overlap := .allow, perJobConcurrency := 2 }, .retain, "true"⟩

def threeRequested : List Op :=
  [.createJob ⟨1, "job", none, "[]", true, twoAtOnce, 0, 0⟩,
   .beginLifetime 2 0,
   .enqueueManual 1 1 twoAtOnce 3 0,
   .enqueueManual 1 1 twoAtOnce 4 0,
   .enqueueManual 1 1 twoAtOnce 5 0,
   .admitRuns (fun _ => some twoAtOnce) 2 0 8]

theorem concurrency_limits_two :
    ∃ m, Reaches m ∧ m.last 1 = some twoAtOnce ∧ m.store.liveCount 1 = 2 ∧
      m.store.activeAttempts = 2 ∧ ∃ policy, snapshotAdmissionPolicy twoAtOnce = .ok policy ∧
        (m.store.liveCount 1 : Int) ≤ Store.perJobLimit policy := by
  obtain ⟨m, hm, hlast, hlive, hactive⟩ := @Runs.exists_reaches _ _ act _ (· = initial)
    (fun _ _ => true) (fun _ _ _ => trivial) threeRequested initial rfl
    (fun m => m.last 1 = some twoAtOnce ∧ m.store.liveCount 1 = 2 ∧ m.store.activeAttempts = 2) _
    (by decide +kernel)
  obtain ⟨policy, hpolicy, hlimit, -⟩ := (concurrency_limits hm).2.2 1 twoAtOnce hlast
  exact ⟨m, hm, hlast, hlive, hactive, policy, hpolicy, hlimit⟩

end Admissions

end Locron
