import Locron.Output.Writer
import Locron.Store.Activity

set_option autoImplicit false

/-! # Handing admitted attempts to the engine

The store admits a whole batch in one transaction; only then does the daemon's adapter prepare each
attempt for the engine. An attempt that cannot be prepared is recorded as failed. If this cannot be
recorded either, the adapter gives up the batch: the attempts it has prepared, the failed one and
the rest stay in `starting`, and no task owns them (`AdmitEnv.admit_abandons_none_iff`).
-/

namespace Locron

def StoreError.text : StoreError → String
  | .notFound what => "not found: " ++ what
  | .conflict message => "durable conflict: " ++ message
  | .sqlite message => message
  | .json message => message

/-- Why the empty output file of a failed attempt could not be made. -/
inductive EmptyOutputError where
  | creation (text : String)
  | finalization (text : String)
deriving DecidableEq, Repr

/-- The settings that bound the output of an attempt. -/
structure OutputLimits where
  perRunOutputLimit : Int
  outputLimit : Int
deriving DecidableEq, Repr

structure AttemptContext where
  attempt : Nat
  partialOutput : String
  finalOutput : String
  outputLimit : Nat
  timeout : Option Nat
deriving DecidableEq, Repr

/-- An attempt as the engine takes it over. -/
structure AdmittedAttempt (Target : Type) where
  runId : Uuid
  target : Target
  context : AttemptContext
deriving DecidableEq, Repr

/-- What one call of the adapter meets outside the tables: the clock, the settings, the targets as
they resolve now, and the faults of the database and of the file system. -/
structure AdmitEnv (Target : Type) where
  now : Int
  settings : Except String OutputLimits
  retainedFault : Option String
  parseError : Snapshot → String
  engineTarget : JobDefinition → RunRow → Nat → Except String Target
  runRetainedFault : Uuid → Option String
  emptyOutputFault : Uuid → Nat → Option EmptyOutputError
  recordedAt : Uuid → Nat → Int
  recordFault : Uuid → Nat → Option String

/-- The path of an output file; attempt zero has none. -/
def outputPath (run : Uuid) (number : Nat) (extension : String) : Except String String :=
  if number = 0 then .error "invalid identity: attempt number must be positive"
  else .ok s!"{run}/{number}.{extension}"

namespace Store

def retainedOutputBytes (s : Store) : Int :=
  ((s.outputs.rows.filter (fun o => o.state = .finalized)).map (fun o => o.physicalBytes)).sum

/-- The payload bytes that a run has kept so far. -/
def retainedRunOutputBytes (s : Store) (run : Uuid) : Int :=
  ((s.outputs.rows.filter (fun o => o.runId = run
    && [OutputState.active, .finalized, .prunePending].contains o.state)).map
      (fun o => o.retainedPayloadBytes)).sum

end Store

namespace AdmitEnv

variable {Target : Type}

/-! ## The adapter -/

def prepareAttempt (env : AdmitEnv Target) (limits : OutputLimits) (globalRetained : Int)
    (s : Store) (row : RunRow) (number : Nat) : Except String (AdmittedAttempt Target) :=
  match row.snapshot.definition with
  | none => .error (env.parseError row.snapshot)
  | some definition =>
    match env.engineTarget definition row number with
    | .error error => .error error
    | .ok target =>
      if 65535 < number then .error "attempt number overflow"
      else
        match env.runRetainedFault row.id with
        | some error => .error error
        | none =>
          let runRemaining :=
            max (saturate (limits.perRunOutputLimit - s.retainedRunOutputBytes row.id)) 0
          let globalRemaining := max (saturate (limits.outputLimit - globalRetained)) 0
          match outputPath row.id number "partial", outputPath row.id number "log" with
          | .ok partialOutput, .ok finalOutput =>
            .ok ⟨row.id, target, number, partialOutput, finalOutput,
              (min runRemaining globalRemaining).toNat, definition.policy.timeout⟩
          | .error error, _ => .error error
          | _, .error error => .error error

/-- The artifact and the reason that are recorded for an attempt that could not be prepared. -/
def preparationFailure (env : AdmitEnv Target) (run : Uuid) (number : Nat)
    (configurationReason : String) : Option OutputRecord × String :=
  let reason := "runtime configuration failure: " ++ configurationReason
  if number ≤ 65535 then
    match outputPath run number "partial", outputPath run number "log" with
    | .ok _, .ok _ =>
      match env.emptyOutputFault run number with
      | none =>
        let stats := (OutputWriter.create 0).stats
        (some ⟨run, number, (i64OfNat stats.retainedBytes).getD i64Max,
          (i64OfNat stats.physicalBytes).getD i64Max,
          (i64OfNat stats.discardedBytes).getD i64Max, stats.truncated⟩, reason)
      | some (.finalization error) =>
        (none, reason ++ "; output finalization also failed: " ++ error)
      | some (.creation error) => (none, reason ++ "; output creation also failed: " ++ error)
    | .error error, _ => (none, reason ++ "; output path is invalid: " ++ error)
    | _, .error error => (none, reason ++ "; output path is invalid: " ++ error)
  else (none, reason ++ "; attempt number cannot be represented in an output path")

def failAdmittedAttempt (env : AdmitEnv Target) (s : Store) (run : Uuid) (number : Nat)
    (configurationReason : String) : Except String Store :=
  let (output, reason) := env.preparationFailure run number configurationReason
  match env.recordFault run number with
  | some error => .error error
  | none =>
    match s.completePreExecutionFailure run number output (env.recordedAt run number) reason with
    | .error error => .error error.text
    | .ok s => .ok s

/-- Prepares the attempts of a batch in turn. A failure that cannot be recorded ends the loop, and
the attempts prepared before it are dropped. -/
def prepareBatch (env : AdmitEnv Target) (limits : OutputLimits) (globalRetained : Int) :
    List (RunRow × Nat) → List (AdmittedAttempt Target) → Store →
      Store × Except String (List (AdmittedAttempt Target))
  | [], runnable, s => (s, .ok runnable)
  | (row, number) :: rest, runnable, s =>
    match env.prepareAttempt limits globalRetained s row number with
    | .ok admitted => env.prepareBatch limits globalRetained rest (runnable ++ [admitted]) s
    | .error error =>
      match env.failAdmittedAttempt s row.id number error with
      | .error error => (s, .error error)
      | .ok s => env.prepareBatch limits globalRetained rest runnable s

/-- The adapter's admission: the store afterwards, and what the engine is given. -/
def admitBatch (env : AdmitEnv Target) (s : Store) (prepared : Uuid → Option Snapshot)
    (lifetime : Uuid) (capacity : Nat) :
    Store × Except String (List (AdmittedAttempt Target)) :=
  match env.settings with
  | .error error => (s, .error error)
  | .ok limits =>
    match env.retainedFault with
    | some error => (s, .error error)
    | none =>
      let globalRetained := s.retainedOutputBytes
      match s.admitRuns prepared lifetime env.now capacity with
      | .error error => (s, .error error.text)
      | .ok (attempts, s) => env.prepareBatch limits globalRetained attempts [] s

/-! ## Ownership -/

/-- The engine was given the attempt. -/
def HandedOver (result : Except String (List (AdmittedAttempt Target))) (key : Uuid × Nat) : Prop :=
  ∃ runnable, result = .ok runnable ∧ ∃ a ∈ runnable, (a.runId, a.context.attempt) = key

/-- Every preparation of the batch that fails can be recorded as a failure. -/
def RecordsFailures (env : AdmitEnv Target) (s : Store) (prepared : Uuid → Option Snapshot)
    (lifetime : Uuid) (capacity : Nat) : Prop :=
  ∀ limits attempts s₁, env.settings = .ok limits → env.retainedFault = none →
    s.admitRuns prepared lifetime env.now capacity = .ok (attempts, s₁) →
    ∀ x ∈ attempts, ∀ error,
      env.prepareAttempt limits s.retainedOutputBytes s₁ x.1 x.2 = .error error →
      env.recordFault x.1.id x.2 = none

end AdmitEnv

namespace Store

/-! ## Recording a failed preparation -/

/-- The recorded failure closes its attempt and leaves the rows of all others alone. -/
theorem completePreExecutionFailure_tables {s s' : Store} {run : Uuid} {number : Nat}
    {output : Option OutputRecord} {now : Int} {reason : String}
    (h : s.completePreExecutionFailure run number output now reason = .ok s') :
    s'.attemptActive (run, number) = false ∧
      (∀ key, key ≠ (run, number) → s'.attempts.find key = s.attempts.find key ∧
        s'.outputs.find key = s.outputs.find key) ∧
      ∀ id, (s'.runs.find id).isSome = (s.runs.find id).isSome := by
  unfold completePreExecutionFailure at h
  obtain ⟨-, h⟩ := Except.guard_eq_ok.mp h
  obtain ⟨-, h⟩ := Except.guard_eq_ok.mp h
  obtain ⟨-, h⟩ := Except.guard_eq_ok.mp h
  obtain ⟨-, h⟩ := Except.guard_eq_ok.mp h
  dsimp only at h
  split at h
  · cases h
  have heq := Except.ok.inj h
  have hattempts : s'.attempts = s.attempts.update (AttemptRow.isActiveOf run number)
      (AttemptRow.close .failed now 0 "failed" reason) AttemptRow.key_close := by
    rw [← heq]
    exact (sameRuns_softRemove ..).attempts
  obtain ⟨f, hf, houtputs⟩ : ∃ f hf, s'.outputs
      = s.outputs.update (OutputRow.isOf run number [.pending]) f hf := by
    rw [← heq]
    refine ⟨_, ?_, (sameRuns_softRemove ..).outputs⟩
    intro o
    cases output with
    | none | some => rfl
  have hother : ∀ key, key ≠ (run, number) → ∀ a : AttemptRow, a.key = key →
      AttemptRow.isActiveOf run number a = false := by
    rintro _ hne a rfl
    by_contra hof
    simp only [AttemptRow.isActiveOf, Bool.not_eq_false, Bool.and_eq_true,
      decide_eq_true_eq] at hof
    exact hne (Prod.ext hof.1.1 hof.1.2)
  refine ⟨?_, fun key hne => ⟨?_, ?_⟩, ?_⟩
  · exact not_active_of_closed (s := s) _ AttemptRow.key_close hattempts (fun _ => rfl)
  · rw [hattempts]
    exact Table.find_update_eq_self _ (hother key hne)
  · rw [houtputs, Table.find_update_eq_self]
    rintro o rfl
    by_contra hof
    simp only [OutputRow.isOf, Bool.not_eq_false, Bool.and_eq_true, decide_eq_true_eq] at hof
    exact hne (Prod.ext hof.1.1 hof.1.2)
  · intro id
    rw [← heq, (sameRuns_softRemove ..).runs]
    simp only [event, updateRuns, deleteRetryIntents, updateAttempts, updateOutputs,
      Table.find_update, Option.isSome_map]

/-- A failure before execution is recorded for an attempt that is as admission left it. -/
theorem completePreExecutionFailure_succeeds {s : Store} {run : Uuid} {number : Nat}
    {output : Option OutputRecord} {now : Int} {reason : String} {o : OutputRow}
    (hidentity : output.any (fun o => o.runId != run || o.attemptNumber != number) = false)
    (hcounts : output.any OutputRecord.negative = false)
    (ho : s.outputs.find (run, number) = some o) (hpending : o.state = .pending)
    (hactive : s.attemptActive (run, number) = true) (hrun : (s.runs.find run).isSome = true) :
    ∃ s', s.completePreExecutionFailure run number output now reason = .ok s' := by
  have houtputs : s.outputs.count (OutputRow.isOf run number [.pending]) = 1 :=
    count_isOf ho (List.mem_singleton.mpr hpending)
  have hattempts := count_active hactive
  obtain ⟨r, hr⟩ := Option.isSome_iff_exists.mp hrun
  unfold completePreExecutionFailure
  rw [hidentity, hcounts, houtputs, hattempts]
  simp only [Bool.false_eq_true, ne_eq, not_true_eq_false, if_false]
  split
  · next hnone =>
    have hsome : s.runs.find run = none := hnone
    rw [hr] at hsome
    cases hsome
  · exact ⟨_, rfl⟩

end Store

namespace AdmitEnv

variable {Target : Type} {env : AdmitEnv Target} {limits : OutputLimits} {globalRetained : Int}

/-- Whether a preparation fails does not depend on what the run has written so far. -/
theorem prepareAttempt_error {s s' : Store} {row : RunRow} {number : Nat} {error : String}
    (h : env.prepareAttempt limits globalRetained s row number = .error error) :
    env.prepareAttempt limits globalRetained s' row number = .error error := by
  unfold prepareAttempt at h ⊢
  split
  · next hd => simpa only [hd] using h
  next d hd =>
  simp only [hd] at h
  split
  · next e ht => simpa only [ht] using h
  next target ht =>
  simp only [ht] at h
  split
  · next hover => simpa only [if_pos hover] using h
  next hover =>
  rw [if_neg hover] at h
  split
  · next e hfault => simpa only [hfault] using h
  next hfault =>
  simp only [hfault] at h
  split at h
  · cases h
  · next e hpath => simpa only [hpath] using h
  · next e hpath _ => simpa only [hpath] using h

theorem prepareAttempt_key {s : Store} {row : RunRow} {number : Nat}
    {admitted : AdmittedAttempt Target}
    (h : env.prepareAttempt limits globalRetained s row number = .ok admitted) :
    (admitted.runId, admitted.context.attempt) = (row.id, number) := by
  unfold prepareAttempt at h
  split at h
  · cases h
  split at h
  · cases h
  obtain ⟨-, h⟩ := Except.guard_eq_ok.mp h
  split at h
  · cases h
  dsimp only at h
  split at h
  · cases h
    rfl
  · cases h
  · cases h

/-- The recorded artifact is that of the attempt, with counts that the table takes. -/
theorem preparationFailure_recordable (run : Uuid) (number : Nat) (reason : String) :
    (env.preparationFailure run number reason).1.any
        (fun o => o.runId != run || o.attemptNumber != number) = false ∧
      (env.preparationFailure run number reason).1.any OutputRecord.negative = false := by
  unfold preparationFailure
  dsimp only
  split
  · split
    · split
      · simp [OutputRecord.negative, i64OfNat_getD_nonneg]
      · exact ⟨rfl, rfl⟩
      · exact ⟨rfl, rfl⟩
    · exact ⟨rfl, rfl⟩
    · exact ⟨rfl, rfl⟩
  · exact ⟨rfl, rfl⟩

section Loop

variable {s : Store} {lifetime : Uuid} {now : Int}

/-- The rest of a batch stays ready when the failure of its first attempt is recorded. -/
theorem readyFor_tail {x : RunRow × Nat} {rest : List (RunRow × Nat)} {s' : Store}
    (h : s.ReadyFor lifetime now (x :: rest))
    (hkeep : ∀ key, key ≠ (x.1.id, x.2) → s'.attempts.find key = s.attempts.find key ∧
      s'.outputs.find key = s.outputs.find key)
    (hruns : ∀ id, (s'.runs.find id).isSome = (s.runs.find id).isSome) :
    s'.ReadyFor lifetime now rest := by
  obtain ⟨hnot, hdistinct⟩ := List.nodup_cons.mp h.distinct
  have hne : ∀ y ∈ rest, (y.1.id, y.2) ≠ (x.1.id, x.2) := by
    intro y hy heq
    exact hnot (List.mem_map.mpr ⟨y, hy, heq⟩)
  refine ⟨hdistinct, ?_, ?_, ?_⟩
  · intro y hy
    rw [(hkeep _ (hne y hy)).1]
    exact h.attempt y (List.mem_cons_of_mem _ hy)
  · intro y hy
    rw [(hkeep _ (hne y hy)).2]
    exact h.output y (List.mem_cons_of_mem _ hy)
  · intro y hy
    rw [hruns]
    exact h.run y (List.mem_cons_of_mem _ hy)

theorem failAdmittedAttempt_ok {s' : Store} {run : Uuid} {number : Nat} {reason : String}
    (h : env.failAdmittedAttempt s run number reason = .ok s') :
    ∃ output completedAt text, s.completePreExecutionFailure run number output completedAt text
      = .ok s' := by
  unfold failAdmittedAttempt at h
  dsimp only at h
  split at h
  · cases h
  split at h
  · cases h
  next hs =>
  cases h
  exact ⟨_, _, _, hs⟩

/-- A failed preparation is recorded, unless the database cannot be written. -/
theorem failAdmittedAttempt_records {x : RunRow × Nat} {rest : List (RunRow × Nat)}
    (h : s.ReadyFor lifetime now (x :: rest)) (hfault : env.recordFault x.1.id x.2 = none)
    (reason : String) : ∃ s', env.failAdmittedAttempt s x.1.id x.2 reason = .ok s' := by
  have hmem : x ∈ x :: rest := List.mem_cons_self ..
  obtain ⟨hidentity, hcounts⟩ := env.preparationFailure_recordable x.1.id x.2 reason
  obtain ⟨s', hs'⟩ := @Store.completePreExecutionFailure_succeeds s x.1.id x.2
    (env.preparationFailure x.1.id x.2 reason).1 (env.recordedAt x.1.id x.2)
    (env.preparationFailure x.1.id x.2 reason).2 _
    hidentity hcounts (h.output x hmem) rfl (h.active hmem) (h.run x hmem)
  refine ⟨s', ?_⟩
  unfold failAdmittedAttempt
  simp only [hfault, hs']

theorem failAdmittedAttempt_fault {run : Uuid} {number : Nat} {fault : String}
    (h : env.recordFault run number = some fault) (reason : String) :
    env.failAdmittedAttempt s run number reason = .error fault := by
  unfold failAdmittedAttempt
  simp only [h]

theorem prepareBatch_others (batch : List (RunRow × Nat)) (runnable : List (AdmittedAttempt Target))
    {key : Uuid × Nat} (hkey : key ∉ batch.map (fun x => (x.1.id, x.2))) :
    (env.prepareBatch limits globalRetained batch runnable s).1.attempts.find key
      = s.attempts.find key := by
  induction batch generalizing s runnable with
  | nil => rfl
  | cons x rest ih =>
    obtain ⟨row, number⟩ := x
    simp only [List.map_cons, List.mem_cons, not_or] at hkey
    unfold prepareBatch
    split
    · exact ih _ hkey.2
    split
    · rfl
    next s₁ hs₁ =>
    obtain ⟨_, _, _, hcomplete⟩ := failAdmittedAttempt_ok hs₁
    obtain ⟨-, hothers, -⟩ := Store.completePreExecutionFailure_tables hcomplete
    exact (ih _ hkey.2).trans (hothers key hkey.1).1

/-- The loop changes nothing about an attempt that is still active after it. -/
theorem prepareBatch_active (batch : List (RunRow × Nat)) (runnable : List (AdmittedAttempt Target))
    {key : Uuid × Nat}
    (h : (env.prepareBatch limits globalRetained batch runnable s).1.attemptActive key = true) :
    (env.prepareBatch limits globalRetained batch runnable s).1.attempts.find key
        = s.attempts.find key ∧
      (env.prepareBatch limits globalRetained batch runnable s).1.outputs.find key
        = s.outputs.find key := by
  induction batch generalizing s runnable with
  | nil => exact ⟨rfl, rfl⟩
  | cons x rest ih =>
    obtain ⟨row, number⟩ := x
    unfold prepareBatch at h ⊢
    split at h
    · exact ih _ h
    split at h
    · exact ⟨rfl, rfl⟩
    next s₁ hs₁ =>
    obtain ⟨_, _, _, hcomplete⟩ := failAdmittedAttempt_ok hs₁
    obtain ⟨hclosed, hothers, -⟩ := Store.completePreExecutionFailure_tables hcomplete
    obtain ⟨hattempts, houtputs⟩ := ih runnable h
    have hne : key ≠ (row.id, number) := by
      rintro rfl
      rw [Store.attemptActive, hattempts] at h
      rw [Store.attemptActive, h] at hclosed
      cases hclosed
    exact ⟨hattempts.trans (hothers key hne).1, houtputs.trans (hothers key hne).2⟩

/-- If every failure can be recorded, each attempt of the batch is handed over or closed. -/
theorem prepareBatch_owned (batch : List (RunRow × Nat)) (runnable : List (AdmittedAttempt Target))
    (h : s.ReadyFor lifetime now batch)
    (hrecords : ∀ x ∈ batch, ∀ error,
      env.prepareAttempt limits globalRetained s x.1 x.2 = .error error →
        env.recordFault x.1.id x.2 = none) :
    ∃ handed, (env.prepareBatch limits globalRetained batch runnable s).2
        = .ok (runnable ++ handed) ∧
      ∀ x ∈ batch, (∃ a ∈ handed, (a.runId, a.context.attempt) = (x.1.id, x.2)) ∨
        (env.prepareBatch limits globalRetained batch runnable s).1.attemptActive (x.1.id, x.2)
          = false := by
  induction batch generalizing s runnable with
  | nil => exact ⟨[], by simp [prepareBatch], by simp⟩
  | cons x rest ih =>
    obtain ⟨row, number⟩ := x
    have hrest : ∀ s' : Store, ∀ x ∈ rest, ∀ error,
        env.prepareAttempt limits globalRetained s' x.1 x.2 = .error error →
          env.recordFault x.1.id x.2 = none :=
      fun s' x hx error herror =>
        hrecords x (List.mem_cons_of_mem _ hx) error (prepareAttempt_error herror)
    unfold prepareBatch
    split
    · next admitted hadmitted =>
      obtain ⟨handed, hresult, howned⟩ := ih (runnable ++ [admitted])
        (readyFor_tail h (fun _ _ => ⟨rfl, rfl⟩) (fun _ => rfl)) (hrest s)
      refine ⟨admitted :: handed, by simpa using hresult, ?_⟩
      intro x hx
      rcases List.mem_cons.mp hx with rfl | hx
      · exact Or.inl ⟨admitted, List.mem_cons_self .., prepareAttempt_key hadmitted⟩
      rcases howned x hx with ⟨a, ha, hkey⟩ | hclosed
      · exact Or.inl ⟨a, List.mem_cons_of_mem _ ha, hkey⟩
      · exact Or.inr hclosed
    · next error herror =>
      have hfault := hrecords (row, number) (List.mem_cons_self ..) error herror
      obtain ⟨s₁, hs₁⟩ := failAdmittedAttempt_records h hfault error
      obtain ⟨_, _, _, hcomplete⟩ := failAdmittedAttempt_ok hs₁
      obtain ⟨hclosed, hothers, hruns⟩ := Store.completePreExecutionFailure_tables hcomplete
      obtain ⟨handed, hresult, howned⟩ := ih runnable (readyFor_tail h hothers hruns) (hrest s₁)
      simp only [hs₁]
      refine ⟨handed, hresult, ?_⟩
      intro x hx
      rcases List.mem_cons.mp hx with rfl | hx
      · -- the rest of the loop does not come back to a closed attempt
        right
        have hnot := (List.nodup_cons.mp h.distinct).1
        rw [Store.attemptActive, prepareBatch_others rest runnable hnot]
        exact hclosed
      · exact howned x hx

/-- A failure that cannot be recorded leaves an attempt of the batch to nobody. -/
theorem prepareBatch_abandons (batch : List (RunRow × Nat))
    (runnable : List (AdmittedAttempt Target)) (h : s.ReadyFor lifetime now batch)
    {x : RunRow × Nat} (hx : x ∈ batch) {error fault : String}
    (herror : env.prepareAttempt limits globalRetained s x.1 x.2 = .error error)
    (hfault : env.recordFault x.1.id x.2 = some fault) :
    (∃ e, (env.prepareBatch limits globalRetained batch runnable s).2 = .error e) ∧
      ∃ y ∈ batch, (env.prepareBatch limits globalRetained batch runnable s).1.attemptActive
        (y.1.id, y.2) = true := by
  induction batch generalizing s runnable with
  | nil => cases hx
  | cons y rest ih =>
    obtain ⟨row, number⟩ := y
    have hhead : s.attemptActive (row.id, number) = true := h.active (List.mem_cons_self ..)
    have hnext : ∀ {runnable' : List (AdmittedAttempt Target)} {s' : Store},
        s'.ReadyFor lifetime now rest → x ∈ rest →
        (∃ e, (env.prepareBatch limits globalRetained rest runnable' s').2 = .error e) ∧
          ∃ y ∈ (row, number) :: rest,
            (env.prepareBatch limits globalRetained rest runnable' s').1.attemptActive
              (y.1.id, y.2) = true := by
      intro runnable' s' hready hmem
      obtain ⟨hresult, y, hy, hactive⟩ := ih runnable' hready hmem (prepareAttempt_error herror)
      exact ⟨hresult, y, List.mem_cons_of_mem _ hy, hactive⟩
    unfold prepareBatch
    split
    · next admitted hadmitted =>
      have hmem : x ∈ rest := by
        rcases List.mem_cons.mp hx with rfl | hmem
        · rw [hadmitted] at herror
          cases herror
        · exact hmem
      exact hnext (readyFor_tail h (fun _ _ => ⟨rfl, rfl⟩) (fun _ => rfl)) hmem
    · next e he =>
      split
      · exact ⟨⟨_, rfl⟩, (row, number), List.mem_cons_self .., hhead⟩
      next s₁ hs₁ =>
      have hmem : x ∈ rest := by
        rcases List.mem_cons.mp hx with rfl | hmem
        · rw [failAdmittedAttempt_fault hfault] at hs₁
          cases hs₁
        · exact hmem
      obtain ⟨_, _, _, hcomplete⟩ := failAdmittedAttempt_ok hs₁
      obtain ⟨-, hothers, hruns⟩ := Store.completePreExecutionFailure_tables hcomplete
      exact hnext (readyFor_tail h hothers hruns) hmem

end Loop

/-- If every failure can be recorded, an attempt that is active after admission was active before
and is as it was, or it was handed over, with a pending artifact. -/
theorem admitBatch_active {s : Store} {prepared : Uuid → Option Snapshot} {lifetime : Uuid}
    {capacity : Nat} (hrecords : env.RecordsFailures s prepared lifetime capacity)
    {key : Uuid × Nat}
    (h : (env.admitBatch s prepared lifetime capacity).1.attemptActive key = true) :
    (s.attemptActive key = true ∧
        (env.admitBatch s prepared lifetime capacity).1.outputs.find key = s.outputs.find key) ∨
      (HandedOver (env.admitBatch s prepared lifetime capacity).2 key ∧
        (env.admitBatch s prepared lifetime capacity).1.outputs.find key
          = some (.pending key.1 key.2)) := by
  unfold admitBatch at h ⊢
  cases hsettings : env.settings with
  | error e =>
    simp only [hsettings] at h
    exact Or.inl ⟨h, rfl⟩
  | ok limits =>
    cases hretained : env.retainedFault with
    | some e =>
      simp only [hsettings, hretained] at h
      exact Or.inl ⟨h, rfl⟩
    | none =>
      cases hadmits : s.admitRuns prepared lifetime env.now capacity with
      | error e =>
        simp only [hsettings, hretained, hadmits] at h
        exact Or.inl ⟨h, rfl⟩
      | ok result =>
        obtain ⟨batch, s₁⟩ := result
        simp only [hsettings, hretained, hadmits] at h
        obtain ⟨hready, -, hothers⟩ := Store.admitRuns_ready hadmits
        obtain ⟨hattempts, houtputs⟩ := prepareBatch_active batch [] h
        by_cases hkey : key ∈ batch.map (fun x => (x.1.id, x.2))
        · obtain ⟨x, hx, rfl⟩ := List.mem_map.mp hkey
          obtain ⟨handed, hresult, howned⟩ := prepareBatch_owned batch [] hready
            (hrecords limits batch s₁ hsettings hretained hadmits)
          have hhanded := (howned x hx).resolve_right (by rw [h]; simp)
          exact Or.inr ⟨⟨handed, by simpa using hresult, hhanded⟩,
            houtputs.trans (hready.output x hx)⟩
        · obtain ⟨hattempt, houtput⟩ := hothers key hkey
          rw [Store.attemptActive, hattempts, hattempt] at h
          exact Or.inl ⟨h, houtputs.trans houtput⟩

/-- **Admission abandons no attempt** exactly if every preparation that fails can be recorded: an
attempt that was not active before the call and is active after it has been handed to the engine. -/
theorem admit_abandons_none_iff (env : AdmitEnv Target) (s : Store)
    (prepared : Uuid → Option Snapshot) (lifetime : Uuid) (capacity : Nat) :
    (∀ key, s.attemptActive key = false →
        (env.admitBatch s prepared lifetime capacity).1.attemptActive key = true →
        HandedOver (env.admitBatch s prepared lifetime capacity).2 key) ↔
      env.RecordsFailures s prepared lifetime capacity := by
  constructor
  · intro hnone limits batch s₁ hsettings hretained hadmits x hx error herror
    by_contra hfault
    obtain ⟨fault, hfault⟩ := Option.ne_none_iff_exists'.mp hfault
    obtain ⟨hready, hfresh, -⟩ := Store.admitRuns_ready hadmits
    -- the loop ends with an error, and an attempt of the batch is still active
    obtain ⟨⟨e, hresult⟩, y, hy, hactive⟩ := prepareBatch_abandons batch [] hready hx herror hfault
    have hbatch : env.admitBatch s prepared lifetime capacity
        = env.prepareBatch limits s.retainedOutputBytes batch [] s₁ := by
      simp only [admitBatch, hsettings, hretained, hadmits]
    rw [← hbatch] at hresult hactive
    have hbefore : s.attemptActive (y.1.id, y.2) = false := by
      rw [Store.attemptActive, hfresh y hy]
      rfl
    obtain ⟨runnable, hrunnable, -⟩ := hnone _ hbefore hactive
    rw [hresult] at hrunnable
    cases hrunnable
  · intro hrecords key hbefore hafter
    rcases admitBatch_active hrecords hafter with ⟨hactive, -⟩ | ⟨hhanded, -⟩
    · rw [hbefore] at hactive
      cases hactive
    · exact hhanded

/-- No executable is found for the target, and the database is busy when this is to be recorded. -/
def unresolvedAndBusy : AdmitEnv Unit where
  now := 0
  settings := .ok ⟨1000, 1000⟩
  retainedFault := none
  parseError := fun _ => "invalid snapshot"
  engineTarget := fun _ _ _ => .error "executable not found"
  runRetainedFault := fun _ => none
  emptyOutputFault := fun _ _ => none
  recordedAt := fun _ _ => 0
  recordFault := fun _ _ => some "database is locked"

def hourlyJob : Snapshot := .job ⟨.every 3600000000 0, .default, .retain, "true"⟩

def waitingRun : List Op :=
  [.createJob ⟨1, "job", none, "[]", true, hourlyJob, 0, 0⟩,
   .beginLifetime 2 0,
   .enqueueManual 1 1 hourlyJob 3 0]

/-- The failed preparation is not recorded: the attempt is in `starting`, and nobody owns it. -/
theorem unrecorded_failure_abandons :
    ∃ s, Store.Reachable Store.anyOp s ∧ ∃ prepared key, s.attemptActive key = false ∧
      (unresolvedAndBusy.admitBatch s prepared 2 1).1.attemptActive key = true ∧
      ¬ HandedOver (unresolvedAndBusy.admitBatch s prepared 2 1).2 key := by
  obtain ⟨s, hs, hbefore, hafter, herror⟩ := Store.exists_reachable Store.anyOp waitingRun
    (fun s => s.attemptActive (3, 1) = false ∧
      (unresolvedAndBusy.admitBatch s (fun _ => some hourlyJob) 2 1).1.attemptActive (3, 1) = true ∧
      ∀ runnable, (unresolvedAndBusy.admitBatch s (fun _ => some hourlyJob) 2 1).2 ≠ .ok runnable)
    (fun _ _ _ => trivial) (by decide +kernel)
  refine ⟨s, hs, fun _ => some hourlyJob, (3, 1), hbefore, hafter, ?_⟩
  rintro ⟨runnable, hrunnable, -⟩
  exact herror runnable hrunnable

end AdmitEnv

end Locron
