import Locron.Store.Names

set_option autoImplicit false

/-! # Selectors of jobs

A job is addressed by one text, which is compared with the identities and with the names of the live
jobs at once. The first row of the answer is taken, and the store promises no order. A name is any
text, the canonical text of another job's identity included, so a selector means one job exactly
while no live job is called like another one (`selectors_exact_iff`).
-/

namespace Locron

namespace Store

def selected (s : Store) (reference : String) : List JobRow :=
  s.jobs.rows.filter fun j =>
    (uuidText j.id = reference || j.name = reference) && j.removedAt.isNone

theorem mem_selected {s : Store} {reference : String} {j : JobRow} : j ∈ s.selected reference ↔
    s.liveJob j.id = some j ∧ (uuidText j.id = reference ∨ j.name = reference) := by
  unfold selected
  rw [List.mem_filter, liveJob_eq_some, Bool.and_eq_true, Bool.or_eq_true, decide_eq_true_eq,
    decide_eq_true_eq, Option.isNone_iff_eq_none]
  constructor
  · rintro ⟨hmem, hmatch, hlive⟩
    exact ⟨⟨Table.find_of_mem hmem, hlive⟩, hmatch⟩
  · rintro ⟨⟨hfind, hlive⟩, hmatch⟩
    exact ⟨Table.mem_of_find hfind, hmatch, hlive⟩

end Store

structure FirstRow where
  pick : List JobRow → Option JobRow
  mem : ∀ {rows : List JobRow} {j : JobRow}, pick rows = some j → j ∈ rows
  total : ∀ {rows : List JobRow}, pick rows = none → rows = []

def FirstRow.inOrder : FirstRow where
  pick := List.head?
  mem := List.mem_of_mem_head?
  total := List.head?_eq_none_iff.mp

/-- What is done to the addressed job. An update is worked out from what was read of it. -/
inductive JobAction where
  | setEnabled (enabled : Bool) (now : Int)
  | remove (now : Int)
  | update (edit : JobRecord → UpdateJob)
  | run (fresh : Uuid) (now : Int)

def JobAction.perform (s : Store) (id : Uuid) : JobAction → Except StoreError Store
  | .setEnabled enabled now => s.setEnabled id enabled now
  | .remove now => s.removeJob id now
  | .update edit =>
    match s.readJob id with
    | none => .error (.notFound (toString id))
    | some record => s.updateJob { edit record with
        id := record.id
        expectedRevision := record.currentRevision }
  | .run fresh now =>
    match s.readJob id with
    | none => .error (.notFound (toString id))
    | some record => s.enqueueManual id record.currentRevision record.definition fresh now

namespace Store

def act (first : FirstRow) (s : Store) (reference : String) (action : JobAction) :
    Except StoreError Store :=
  match first.pick (s.selected reference) with
  | none => .error (.notFound reference)
  | some j => action.perform s j.id

/-- The attempts and artifacts are as they were, and so are the retries planned for the kept
runs. -/
structure KeepsWork (keeps : Uuid → Prop) (s s' : Store) : Prop where
  attempts : s'.attempts = s.attempts
  outputs : s'.outputs = s.outputs
  retryIntents : ∀ run, keeps run → s'.retryIntents.find run = s.retryIntents.find run

/-- Nothing of any other job has changed. -/
structure TouchesOnly (s s' : Store) (id : Uuid) : Prop where
  jobs : ∀ other, other ≠ id → s'.jobs.find other = s.jobs.find other
  revisions : ∀ other revision, other ≠ id →
    s'.revisions.find (other, revision) = s.revisions.find (other, revision)
  cursors : ∀ other revision, other ≠ id →
    s'.cursors.find (other, revision) = s.cursors.find (other, revision)
  runs : ∀ r : RunRow, r.jobId ≠ id → (r ∈ s'.runs.rows ↔ r ∈ s.runs.rows)
  work : KeepsWork (fun run => ∀ r ∈ s.runs.rows, r.id = run → r.jobId ≠ id) s s'

/-- Selectors mean one job: an action that is addressed by the identity of a job, or by the name of
a live one, concerns this job, and no selector matches several jobs. -/
structure SelectorsExact (first : FirstRow) (s : Store) : Prop where
  byId : ∀ j ∈ s.jobs.rows, ∀ action s', s.act first (uuidText j.id) action = .ok s' →
    s.TouchesOnly s' j.id
  byName : ∀ j ∈ s.jobs.rows, j.removedAt = none → ∀ action s', s.act first j.name action = .ok s' →
    s.TouchesOnly s' j.id
  single : ∀ reference, (s.selected reference).length ≤ 1

/-- No live job is called like the identity of another job, live or removed. -/
def NoneNamedById (s : Store) : Prop :=
  ∀ j ∈ s.jobs.rows, ∀ k ∈ s.jobs.rows, k.removedAt = none → k.name = uuidText j.id → k.id = j.id

/-! ## Actions concern their job -/

section Touches

variable {s s' : Store} {id : Uuid}

theorem SameRuns.keepsWork (h : SameRuns s s') (keeps : Uuid → Prop) : KeepsWork keeps s s' :=
  ⟨h.attempts, h.outputs, fun _ _ => by rw [h.retryIntents]⟩

/-- Superseding runs drops their planned retries only. -/
theorem keepsWork_foldl_supersedeRun (now : Int) (job successor : Uuid) (runs : List Uuid)
    (s : Store) : KeepsWork (· ∉ runs) s
      (runs.foldl (fun s run => s.supersedeRun now job successor run) s) := by
  induction runs generalizing s with
  | nil => exact ⟨rfl, rfl, fun _ _ => rfl⟩
  | cons run runs ih =>
    obtain ⟨hattempts, houtputs, hintents⟩ := ih (s.supersedeRun now job successor run)
    refine ⟨hattempts, houtputs, fun other hother => ?_⟩
    rw [List.mem_cons, not_or] at hother
    refine (hintents other hother.2).trans ?_
    show (s.retryIntents.delete (fun i => i.runId = run)).find other = _
    rw [Table.find_delete]
    cases hi : s.retryIntents.find other with
    | none => rfl
    | some i =>
      have hkey : i.runId = other := Table.key_of_find hi
      simp [hkey, hother.1]

theorem keepsWork_room (s : Store) (job : Uuid) (now : Int) (run : Uuid) (candidate : Bool) :
    KeepsWork (fun other => ∀ r ∈ s.runs.rows, r.id = other → r.jobId ≠ job) s
      (s.room job now run candidate) := by
  unfold room
  split
  -- only runs of the job give way, so the runs of others are none of those superseded
  · obtain ⟨hattempts, houtputs, hintents⟩ := keepsWork_foldl_supersedeRun now job run
      (s.takeQueueSequence.2.supersededRuns job) s.takeQueueSequence.2
    unfold supersedeForReplacement
    dsimp only
    have hkept : ∀ other, (∀ r ∈ s.runs.rows, r.id = other → r.jobId ≠ job) →
        other ∉ s.takeQueueSequence.2.supersededRuns job := by
      intro other hkeeps hmem
      simp only [supersededRuns, List.mem_map, List.mem_insertionSort, List.mem_filter,
        Bool.and_eq_true, decide_eq_true_eq] at hmem
      obtain ⟨r, ⟨hr, hjob, -⟩, hid⟩ := hmem
      exact hkeeps r hr hid hjob
    split <;> exact ⟨hattempts, houtputs, fun other h => hintents other (hkept other h)⟩
  · exact ⟨rfl, rfl, fun _ _ => rfl⟩

theorem touchesOnly_of_definitions {f : JobRow → JobRow} {g : Uuid × Nat → CursorRow → CursorRow}
    (hsame : SameRuns s s') (hrevisions : s'.revisions = s.revisions)
    (hjobs : ∀ x, s'.jobs.find x = (s.jobs.find x).map f)
    (hcursors : ∀ key, s'.cursors.find key = (s.cursors.find key).map (g key))
    (hf : ∀ j : JobRow, j.id ≠ id → f j = j) (hg : ∀ key c, key.1 ≠ id → g key c = c) :
    s.TouchesOnly s' id := by
  refine ⟨?_, ?_, ?_, ?_, hsame.keepsWork _⟩
  · intro other hne
    rw [hjobs]
    cases hj : s.jobs.find other with
    | none => rfl
    | some j =>
      have hid : j.id = other := Table.key_of_find hj
      rw [Option.map_some, hf j (by rwa [hid])]
  · intro other revision _
    rw [hrevisions]
  · intro other revision hne
    rw [hcursors]
    cases hc : s.cursors.find (other, revision) with
    | none => rfl
    | some c => rw [Option.map_some, hg _ c hne]
  · intro r _
    rw [hsame.runs]

theorem touchesOnly_updateJob {job : UpdateJob} (h : s.updateJob job = .ok s') :
    s.TouchesOnly s' job.id := by
  have hrevised := updateJob_ok h
  obtain ⟨origin, hrevisions⟩ := hrevised.revisions
  have happly : s.apply (.updateJob job) = .ok s' := h
  have hsame : SameRuns s s' := sameRuns_apply rfl happly
  refine ⟨?_, ?_, ?_, ?_, hsame.keepsWork _⟩
  · intro other hne
    rw [hrevised.jobs]
    cases hj : s.jobs.find other with
    | none => rfl
    | some j =>
      have hid : j.id = other := Table.key_of_find hj
      rw [Option.map_some, if_neg (by rwa [hid])]
  · intro other revision hne
    rw [hrevisions, if_neg (fun heq => hne (congrArg Prod.fst heq).symm)]
  · intro other revision hne
    rw [hrevised.cursors, if_neg (fun heq => hne (congrArg Prod.fst heq).symm)]
  · intro r _
    rw [hrevised.runs]

theorem keepsWork_enqueueManual {revision : Nat} {snapshot : Snapshot} {run : Uuid} {now : Int}
    (h : s.enqueueManual id revision snapshot run now = .ok s') :
    KeepsWork (fun other => ∀ r ∈ s.runs.rows, r.id = other → r.jobId ≠ id) s s' := by
  unfold enqueueManual at h
  split at h
  · cases h
  next policy _ =>
  split at h
  · cases h
  split at h
  · cases h
  obtain ⟨-, h⟩ := Except.guard_eq_ok.mp h
  obtain ⟨s₁, hs₁, heq⟩ := Except.map_eq_ok.mp h
  cases heq
  have hs₁' : (s.room id now run (s.decision id true policy).candidate).insertRun _ = .ok s₁ := hs₁
  unfold insertRun at hs₁'
  obtain ⟨-, hs₁'⟩ := Except.guard_eq_ok.mp hs₁'
  split at hs₁'
  · split at hs₁'
    · cases hs₁'
      obtain ⟨hattempts, houtputs, hintents⟩ := keepsWork_room s id now run
        (s.decision id true policy).candidate
      exact ⟨hattempts, houtputs, hintents⟩
    · cases hs₁'
  · cases hs₁'

theorem touchesOnly_enqueueManual {revision : Nat} {snapshot : Snapshot} {run : Uuid} {now : Int}
    (h : s.enqueueManual id revision snapshot run now = .ok s') : s.TouchesOnly s' id := by
  obtain ⟨policy, -, hkeeps, -, -, -, hrows⟩ := enqueueManual_ok h
  refine ⟨fun _ _ => by rw [hkeeps.jobs], fun _ _ _ => by rw [hkeeps.revisions],
    fun _ _ _ => by rw [hkeeps.cursors], ?_, keepsWork_enqueueManual h⟩
  intro r hjob
  -- room is made among the runs of the job
  have hother : ∀ x : RunRow, x.jobId ≠ id → x.makeRoom id now = x := by
    intro x hx
    unfold RunRow.makeRoom
    rw [if_neg (by simp [hx]), if_neg (by simp [hx])]
  rw [hrows, List.mem_append, List.mem_singleton]
  constructor
  · rintro (hroom | rfl)
    · obtain ⟨x, hx, rfl⟩ := of_mem_roomRows hroom
      split at hjob
      · rw [(x.sameRun_makeRoom id now).jobId] at hjob
        rwa [hother x hjob, ite_self]
      · next hc => rwa [if_neg hc]
    · exact absurd rfl hjob
  · intro hr
    have hroom := mem_roomRows hr id now (s.decision id true policy).candidate
    rw [hother r hjob, ite_self] at hroom
    exact Or.inl hroom

/-- **An action concerns the job it is performed on.** -/
theorem touchesOnly_perform {action : JobAction} (h : action.perform s id = .ok s') :
    s.TouchesOnly s' id := by
  cases action with
  | setEnabled enabled now =>
    obtain ⟨j, -, -, -, hrevisions, hjobs, hcursors⟩ := setEnabled_ok h
    have happly : s.apply (.setEnabled id enabled now) = .ok s' := h
    have hsame : SameRuns s s' := sameRuns_apply rfl happly
    refine touchesOnly_of_definitions hsame hrevisions hjobs hcursors ?_ ?_
    · intro j hne
      rw [if_neg hne]
    · intro key c hne
      rw [if_neg (fun heq => hne (congrArg Prod.fst heq.1))]
  | remove now =>
    obtain ⟨-, -, hrevisions, hcursors, hjobs⟩ := removeJob_ok h
    have happly : s.apply (.removeJob id now) = .ok s' := h
    have hsame : SameRuns s s' := sameRuns_apply rfl happly
    refine touchesOnly_of_definitions (g := fun _ c => c) hsame hrevisions hjobs ?_ ?_ ?_
    · intro key
      rw [hcursors, Option.map_id']
    · intro j hne
      rw [if_neg (fun heq => hne heq.1)]
    · intro key c _
      rfl
  | update edit =>
    unfold JobAction.perform at h
    dsimp only at h
    split at h
    · cases h
    next record hread =>
    obtain ⟨_, _, _, -, -, -, rfl⟩ := of_readJob hread
    exact touchesOnly_updateJob h
  | run fresh now =>
    unfold JobAction.perform at h
    dsimp only at h
    split at h
    · cases h
    · exact touchesOnly_enqueueManual h

end Touches

/-! ## When selectors are exact -/

section Exact

variable {s : Store} {reference : String}

theorem NoneNamedById.id_of_selected (h : s.NoneNamedById) {j k : JobRow} (hj : j ∈ s.jobs.rows)
    (hk : k ∈ s.selected (uuidText j.id)) : k.id = j.id := by
  obtain ⟨hlive, htext | hname⟩ := mem_selected.mp hk
  · exact uuidText_injective htext
  · obtain ⟨hfind, hnone⟩ := liveJob_eq_some.mp hlive
    exact h j hj k (Table.mem_of_find hfind) hnone hname

theorem NoneNamedById.name_of_selected (h : s.NoneNamedById) (hunique : s.NamesUnique)
    {j k : JobRow} (hj : s.liveJob j.id = some j) (hk : k ∈ s.selected j.name) : k.id = j.id := by
  obtain ⟨hfind, hnone⟩ := liveJob_eq_some.mp hj
  obtain ⟨hlive, htext | hname⟩ := mem_selected.mp hk
  · have hmem := Table.mem_of_find (liveJob_eq_some.mp hlive).1
    exact (h k hmem j (Table.mem_of_find hfind) hnone htext.symm).symm
  · exact hunique k.id j.id k j hlive hj hname

theorem touchesOnly_act {first : FirstRow} {action : JobAction} {s' : Store} {id : Uuid}
    (h : s.act first reference action = .ok s') (hid : ∀ k ∈ s.selected reference, k.id = id) :
    s.TouchesOnly s' id := by
  unfold act at h
  split at h
  · cases h
  next k hk =>
  rw [← hid k (first.mem hk)]
  exact touchesOnly_perform h

theorem NoneNamedById.selectorsExact (h : s.NoneNamedById) (hunique : s.NamesUnique)
    (first : FirstRow) : SelectorsExact first s where
  byId j hj action s' hact := touchesOnly_act hact fun k hk => h.id_of_selected hj hk
  byName j hj hnone action s' hact := touchesOnly_act hact fun k hk =>
    h.name_of_selected hunique (liveJob_eq_some.mpr ⟨Table.find_of_mem hj, hnone⟩) hk
  single reference := by
    -- two selected rows have the same identity, so they are one row
    have hsame : ∀ j ∈ s.selected reference, ∀ k ∈ s.selected reference, j.id = k.id := by
      intro j hj k hk
      obtain ⟨hlive, htext | hname⟩ := mem_selected.mp hj
      · rw [← htext] at hk
        exact (h.id_of_selected (Table.mem_of_find (liveJob_eq_some.mp hlive).1) hk).symm
      · rw [← hname] at hk
        exact (h.name_of_selected hunique hlive hk).symm
    have hnodup : ((s.selected reference).map JobRow.id).Nodup :=
      s.jobs.nodup.sublist (List.filter_sublist.map JobRow.id)
    match hrows : s.selected reference with
    | [] => exact Nat.zero_le 1
    | [_] => exact le_refl 1
    | j :: k :: rest =>
      rw [hrows] at hsame hnodup
      have hne := (List.nodup_cons.mp hnodup).1
      exact absurd (by rw [hsame j (by simp) k (by simp)]; simp) hne

/-- A live job that is called like a removed one answers for it. -/
theorem SelectorsExact.noneNamedById {first : FirstRow} (h : SelectorsExact first s)
    (hunique : s.NamesUnique) : s.NoneNamedById := by
  intro j hj k hk hlive hname
  by_contra hne
  have hklive : s.liveJob k.id = some k := liveJob_eq_some.mpr ⟨Table.find_of_mem hk, hlive⟩
  have hkmem : k ∈ s.selected (uuidText j.id) := mem_selected.mpr ⟨hklive, Or.inr hname⟩
  cases hremoved : j.removedAt with
  | none =>
    -- both jobs are selected
    have hjmem : j ∈ s.selected (uuidText j.id) :=
      mem_selected.mpr ⟨liveJob_eq_some.mpr ⟨Table.find_of_mem hj, hremoved⟩, Or.inl rfl⟩
    have hone := h.single (uuidText j.id)
    match hrows : s.selected (uuidText j.id) with
    | [] => rw [hrows] at hjmem; cases hjmem
    | [x] =>
      rw [hrows, List.mem_singleton] at hjmem hkmem
      exact hne (by rw [hjmem, hkmem])
    | _ :: _ :: _ =>
      rw [hrows, List.length_cons, List.length_cons] at hone
      omega
  | some at_ =>
    -- the identity selects the other job, and an action on it shows
    have honly : ∀ x ∈ s.selected (uuidText j.id), x.id = k.id := by
      intro x hx
      obtain ⟨hxlive, htext | hxname⟩ := mem_selected.mp hx
      · have hid : x.id = j.id := uuidText_injective htext
        rw [hid] at hxlive
        obtain ⟨hfind, hnone⟩ := liveJob_eq_some.mp hxlive
        rw [Option.some.inj ((Table.find_of_mem hj).symm.trans hfind), hnone] at hremoved
        cases hremoved
      · exact hunique x.id k.id x k hxlive hklive (hxname.trans hname.symm)
    obtain ⟨s', hs'⟩ : ∃ s', s.setEnabled k.id k.enabled (k.updatedAt + 1) = .ok s' := by
      unfold setEnabled
      simp only [hklive]
      split
      · exact ⟨_, rfl⟩
      · split <;> exact ⟨_, rfl⟩
    have hact : s.act first (uuidText j.id) (.setEnabled k.enabled (k.updatedAt + 1)) = .ok s' := by
      unfold act
      cases hpick : first.pick (s.selected (uuidText j.id)) with
      | none =>
        rw [first.total hpick] at hkmem
        cases hkmem
      | some x =>
        show s.setEnabled x.id k.enabled (k.updatedAt + 1) = .ok s'
        rw [honly x (first.mem hpick)]
        exact hs'
    have htouched := (h.byId j hj _ s' hact).jobs k.id hne
    obtain ⟨_, -, -, -, -, hjobs, -⟩ := setEnabled_ok hs'
    rw [hjobs, Table.find_of_mem hk, Option.map_some, if_pos rfl, Option.some.injEq] at htouched
    have hupdated := congrArg JobRow.updatedAt htouched
    dsimp only at hupdated
    omega

/-- **Selectors mean one job exactly if no live job is called like the identity of another one.** -/
theorem selectors_exact_iff (h : Reachable anyOp s) (first : FirstRow) :
    SelectorsExact first s ↔ s.NoneNamedById :=
  ⟨fun hexact => hexact.noneNamedById h.namesUnique,
    fun hnone => hnone.selectorsExact h.namesUnique first⟩

end Exact

def hourlySnapshot : Snapshot :=
  .job ⟨.every 3600000000 0, ExecutionPolicy.default, .retain, "true"⟩

/-- Two jobs with plain names are told apart. -/
theorem selectors_exact_iff_plain :
    ∃ s, Reachable anyOp s ∧ s.jobs.rows.length = 2 ∧ SelectorsExact .inOrder s := by
  obtain ⟨s, hs, htwo, hplain⟩ := exists_reachable anyOp
    [.createJob ⟨1, "backup", none, "[]", true, hourlySnapshot, 0, 0⟩,
     .createJob ⟨2, "report", none, "[]", true, hourlySnapshot, 0, 0⟩]
    (fun s => s.jobs.rows.length = 2 ∧ ∀ j ∈ s.jobs.rows, ∀ k ∈ s.jobs.rows, k.removedAt = none →
      k.name = uuidText j.id → k.id = j.id)
    (fun _ _ _ => trivial) (by decide +kernel)
  exact ⟨s, hs, htwo, (selectors_exact_iff hs .inOrder).mpr hplain⟩

/-- **A job called like the identity of another one**: the text selects both, and whichever row
comes first, the removal of the job with this identity or that of the job with this name removes the
other one. -/
theorem selector_means_two_jobs :
    ∃ s, Reachable anyOp s ∧ (s.selected (uuidText 1)).length = 2 ∧
      (∃ j, s.liveJob 1 = some j) ∧ (∃ k, s.liveJob 2 = some k ∧ k.name = uuidText 1) ∧
      ∀ first, ∃ s', s.act first (uuidText 1) (.remove 5) = .ok s' ∧
        (¬ s.TouchesOnly s' 1 ∨ ¬ s.TouchesOnly s' 2) := by
  obtain ⟨s, hs, hselected, hsecond, hremoves⟩ := exists_reachable anyOp
    [.createJob ⟨1, "backup", none, "[]", true, hourlySnapshot, 0, 0⟩,
     .createJob ⟨2, uuidText 1, none, "[]", true, hourlySnapshot, 0, 0⟩]
    (fun s => (s.selected (uuidText 1)).map JobRow.id = [1, 2] ∧
      (∃ k, s.liveJob 2 = some k ∧ k.name = uuidText 1) ∧
      ∀ id ∈ ([1, 2] : List Uuid), (s.liveJob id).isSome = true ∧
        (s.removeJob id 5).map (fun s' => (s'.liveJob id).isSome) = .ok false)
    (fun _ _ _ => trivial) (by decide +kernel)
  refine ⟨s, hs, by rw [← List.length_map JobRow.id, hselected]; rfl,
    Option.isSome_iff_exists.mp (hremoves 1 (by decide)).1, hsecond, ?_⟩
  intro first
  cases hpick : first.pick (s.selected (uuidText 1)) with
  | none =>
    rw [first.total hpick] at hselected
    cases hselected
  | some x =>
    have hid : x.id ∈ [1, 2] := hselected ▸ List.mem_map_of_mem (first.mem hpick)
    obtain ⟨hlive, hremoved⟩ := hremoves x.id hid
    obtain ⟨s', hs', hgone⟩ := Except.map_eq_ok.mp hremoved
    -- the removed row shows that the job was touched
    have hchanged : s'.jobs.find x.id ≠ s.jobs.find x.id := by
      intro hsame
      rw [liveJob, hsame] at hgone
      cases hlive.symm.trans hgone
    refine ⟨s', by unfold act; rw [hpick]; exact hs', ?_⟩
    rcases List.mem_pair.mp hid with hone | htwo
    · exact Or.inr fun htouches => hchanged (htouches.jobs x.id (by rw [hone]; decide))
    · exact Or.inl fun htouches => hchanged (htouches.jobs x.id (by rw [htwo]; decide))

end Store

end Locron
