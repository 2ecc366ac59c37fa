import Locron.Store.Positions

set_option autoImplicit false

/-! # Names of jobs

No two live jobs have the same name (`Reachable.namesUnique`), and no two identities have the same
text (`uuidText_injective`).
-/

namespace Locron

/-! ## Canonical texts of identities -/

/-- The last `k` hexadecimal digits of a number. -/
def hexDigits : Nat → Nat → List Char
  | 0, _ => []
  | k + 1, n => hexDigits k (n / 16) ++ [Nat.digitChar (n % 16)]

/-- The groups of a canonical UUID. -/
def hyphenate (digits : List Char) : List Char :=
  digits.take 8 ++ '-' :: ((digits.drop 8).take 4 ++ '-' :: ((digits.drop 12).take 4 ++ '-' ::
    ((digits.drop 16).take 4 ++ '-' :: digits.drop 20)))

/-- The canonical text of an identity. `Uuid` is unbounded here, while the source has 128 bits: a
number from `2 ^ 128` on is the identity of nothing, and marks behind its digits, which no text of
the source has, keep it apart from the others. -/
def uuidText (id : Uuid) : String :=
  String.ofList (hyphenate (hexDigits 32 id) ++ List.replicate (id / 16 ^ 32) '+')

theorem length_hexDigits (k n : Nat) : (hexDigits k n).length = k := by
  induction k generalizing n with
  | zero => rfl
  | succ k ih => rw [hexDigits, List.length_append, ih, List.length_singleton]

theorem digitChar_injective {a b : Nat} (ha : a < 16) (hb : b < 16)
    (h : Nat.digitChar a = Nat.digitChar b) : a = b := by
  have hall : ∀ a < 16, ∀ b < 16, Nat.digitChar a = Nat.digitChar b → a = b := by decide
  exact hall a ha b hb h

theorem mod_of_hexDigits {k n m : Nat} (h : hexDigits k n = hexDigits k m) :
    n % 16 ^ k = m % 16 ^ k := by
  induction k generalizing n m with
  | zero => rw [pow_zero, Nat.mod_one, Nat.mod_one]
  | succ k ih =>
    rw [hexDigits, hexDigits] at h
    obtain ⟨hinit, hlast⟩ := List.append_inj h (by rw [length_hexDigits, length_hexDigits])
    have hdigit : n % 16 = m % 16 :=
      digitChar_injective (Nat.mod_lt _ (by decide)) (Nat.mod_lt _ (by decide))
        (by simpa using hlast)
    calc n % 16 ^ (k + 1) = n % (16 * 16 ^ k) := by rw [pow_succ, Nat.mul_comm]
      _ = n % 16 + 16 * (n / 16 % 16 ^ k) := Nat.mod_mul
      _ = m % 16 + 16 * (m / 16 % 16 ^ k) := by rw [hdigit, ih hinit]
      _ = m % (16 * 16 ^ k) := Nat.mod_mul.symm
      _ = m % 16 ^ (k + 1) := by rw [pow_succ, Nat.mul_comm]

theorem not_hyphen_of_mem_hexDigits {k n : Nat} {c : Char} (h : c ∈ hexDigits k n) : c ≠ '-' := by
  induction k generalizing n with
  | zero => cases h
  | succ k ih =>
    rw [hexDigits, List.mem_append, List.mem_singleton] at h
    rcases h with h | rfl
    · exact ih h
    · have hall : ∀ d < 16, Nat.digitChar d ≠ '-' := by decide
      exact hall _ (Nat.mod_lt _ (by decide))

theorem filter_hyphenate {digits : List Char} (h : ∀ c ∈ digits, c ≠ '-') :
    (hyphenate digits).filter (· ≠ '-') = digits := by
  have hkeep : ∀ part : List Char, part ⊆ digits → part.filter (· ≠ '-') = part := by
    intro part hpart
    exact List.filter_eq_self.mpr fun c hc => decide_eq_true (h c (hpart hc))
  have hdrop : ∀ n, digits.drop n ⊆ digits := fun n => List.drop_subset n digits
  have htake : ∀ n, (digits.drop n).take 4 ⊆ digits := fun n c hc =>
    hdrop n (List.take_subset 4 _ hc)
  unfold hyphenate
  simp only [List.filter_append, List.filter_cons, ne_eq, not_true_eq_false, decide_false,
    Bool.false_eq_true, if_false]
  simp only [← ne_eq, hkeep _ (List.take_subset 8 digits), hkeep _ (htake _), hkeep _ (hdrop _)]
  -- each group is followed by the rest of the digits
  have hgroup : ∀ n, (digits.drop n).take 4 ++ digits.drop (n + 4) = digits.drop n := by
    intro n
    rw [← List.drop_drop, List.take_append_drop]
  rw [hgroup 16, hgroup 12, hgroup 8, List.take_append_drop]

theorem uuidText_injective {a b : Uuid} (h : uuidText a = uuidText b) : a = b := by
  have hlist := congrArg String.toList h
  unfold uuidText at hlist
  rw [String.toList_ofList, String.toList_ofList] at hlist
  have hplus : ∀ n, (List.replicate n '+').filter (· ≠ '-') = List.replicate n '+' := fun n =>
    List.filter_eq_self.mpr fun c hc => by rw [List.eq_of_mem_replicate hc]; decide
  have hdigits := congrArg (List.filter (· ≠ '-')) hlist
  rw [List.filter_append, List.filter_append, filter_hyphenate fun c => not_hyphen_of_mem_hexDigits,
    filter_hyphenate fun c => not_hyphen_of_mem_hexDigits, hplus, hplus] at hdigits
  obtain ⟨hlow, hhigh⟩ := List.append_inj hdigits (by rw [length_hexDigits, length_hexDigits])
  have hmod : a % 16 ^ 32 = b % 16 ^ 32 := mod_of_hexDigits hlow
  have hdiv : a / 16 ^ 32 = b / 16 ^ 32 := by
    have := congrArg List.length hhigh
    rwa [List.length_replicate, List.length_replicate] at this
  calc a = 16 ^ 32 * (a / 16 ^ 32) + a % 16 ^ 32 := (Nat.div_add_mod a _).symm
    _ = 16 ^ 32 * (b / 16 ^ 32) + b % 16 ^ 32 := by rw [hdiv, hmod]
    _ = b := Nat.div_add_mod b _

example : uuidText 0x123e4567e89b12d3a456426614174000 = "123e4567-e89b-12d3-a456-426614174000" := by
  decide

namespace Store

/-! ## Live names -/

/-- Live jobs of the same name are the same job. -/
def NamesUnique (s : Store) : Prop :=
  ∀ id id' j j', s.liveJob id = some j → s.liveJob id' = some j' → j.name = j'.name → id = id'

/-- No live job is new, and none has another name. -/
def KeepsNames (s s' : Store) : Prop :=
  ∀ id j', s'.liveJob id = some j' → ∃ j, s.liveJob id = some j ∧ j.name = j'.name

variable {s s' : Store}

theorem KeepsNames.namesUnique (h : KeepsNames s s') (hs : s.NamesUnique) :
    s'.NamesUnique := by
  intro id id' k k' hk hk' hname
  obtain ⟨j, hj, hsame⟩ := h id k hk
  obtain ⟨j', hj', hsame'⟩ := h id' k' hk'
  exact hs id id' j j' hj hj' (by rw [hsame, hsame', hname])

variable {id : Uuid} {j : JobRow}

theorem liveJob_eq_some :
    s.liveJob id = some j ↔ s.jobs.find id = some j ∧ j.removedAt = none := by
  unfold liveJob
  rw [Option.filter_eq_some_iff, Option.isNone_iff_eq_none]

theorem keepsNames_of_map {f : Uuid → JobRow → JobRow}
    (hjobs : ∀ id, s'.jobs.find id = (s.jobs.find id).map (f id))
    (hname : ∀ id j, (f id j).name = j.name)
    (hlive : ∀ id j, (f id j).removedAt = none → j.removedAt = none) : KeepsNames s s' := by
  intro id j' hj'
  obtain ⟨hfind, hnone⟩ := liveJob_eq_some.mp hj'
  rw [hjobs] at hfind
  obtain ⟨j, hj, rfl⟩ := Option.map_eq_some_iff.mp hfind
  exact ⟨j, liveJob_eq_some.mpr ⟨hj, hlive id j hnone⟩, (hname id j).symm⟩

theorem keepsNames_of_jobs_eq (h : s'.jobs = s.jobs) : KeepsNames s s' := by
  intro id j hj
  refine ⟨j, ?_, rfl⟩
  unfold liveJob at hj ⊢
  rwa [← h]

theorem not_liveNameExists {name : String} (h : s.liveNameExists name = false)
    (hj : s.liveJob id = some j) : j.name ≠ name := by
  rintro rfl
  obtain ⟨hfind, hnone⟩ := liveJob_eq_some.mp hj
  unfold liveNameExists at h
  rw [← Bool.not_eq_true, Table.exist_iff] at h
  exact h ⟨j, Table.mem_of_find hfind, by simp [hnone]⟩

theorem not_otherLiveNameExists {name : String} {own : Uuid}
    (h : s.otherLiveNameExists name own = false)
    (hj : s.liveJob id = some j) (hne : id ≠ own) : j.name ≠ name := by
  rintro rfl
  obtain ⟨hfind, hnone⟩ := liveJob_eq_some.mp hj
  unfold otherLiveNameExists at h
  rw [← Bool.not_eq_true, Table.exist_iff] at h
  have hid : j.id ≠ own := by rwa [Table.key_of_find hfind]
  exact h ⟨j, Table.mem_of_find hfind, by simp [hnone, hid]⟩

variable {now : Int}

theorem NamesUnique.written (job : Uuid) (name : String) (hs : s.NamesUnique)
    (hfree : ∀ id j, s.liveJob id = some j → id ≠ job → j.name ≠ name)
    (hcases : ∀ id j, s'.liveJob id = some j →
      id = job ∧ j.name = name ∨ id ≠ job ∧ s.liveJob id = some j) : s'.NamesUnique := by
  intro id id' j j' hj hj' hname
  rcases hcases id j hj with ⟨hid, hnew⟩ | ⟨hid, hold⟩
  · rcases hcases id' j' hj' with ⟨hid', -⟩ | ⟨hid', hold'⟩
    · exact hid.trans hid'.symm
    · exact absurd (hname.symm.trans hnew) (hfree id' j' hold' hid')
  rcases hcases id' j' hj' with ⟨-, hnew'⟩ | ⟨-, hold'⟩
  · exact absurd (hname.trans hnew') (hfree id j hold hid)
  · exact hs id id' j j' hold hold' hname

theorem NamesUnique.created {job : CreateJob} (hs : s.NamesUnique)
    (hfree : s.liveNameExists job.name = false)
    (hjobs : ∀ id, s'.jobs.find id = if job.id = id then some (.new job now) else s.jobs.find id) :
    s'.NamesUnique := by
  refine NamesUnique.written job.id job.name hs
    (fun _ _ hlive _ => not_liveNameExists hfree hlive) ?_
  intro id j hj
  obtain ⟨hfind, hnone⟩ := liveJob_eq_some.mp hj
  rw [hjobs] at hfind
  split at hfind
  · next hid =>
    cases hfind
    exact Or.inl ⟨hid.symm, rfl⟩
  · next hid => exact Or.inr ⟨Ne.symm hid, liveJob_eq_some.mpr ⟨hfind, hnone⟩⟩

theorem NamesUnique.revised {job : UpdateJob} (hs : s.NamesUnique)
    (hfree : s.otherLiveNameExists job.name job.id = false) (hjobs : ∀ id, s'.jobs.find id =
      (s.jobs.find id).map (fun j => if j.id = job.id then j.revise job now else j)) :
    s'.NamesUnique := by
  refine NamesUnique.written job.id job.name hs
    (fun _ _ hlive hid => not_otherLiveNameExists hfree hlive hid) ?_
  intro id j hj
  obtain ⟨hfind, hnone⟩ := liveJob_eq_some.mp hj
  rw [hjobs] at hfind
  obtain ⟨k, hk, rfl⟩ := Option.map_eq_some_iff.mp hfind
  have hid : k.id = id := Table.key_of_find hk
  by_cases hself : id = job.id
  · rw [if_pos (hid.trans hself)]
    exact Or.inl ⟨hself, rfl⟩
  · rw [if_neg (by rw [hid]; exact hself)] at hnone ⊢
    exact Or.inr ⟨hself, liveJob_eq_some.mpr ⟨hk, hnone⟩⟩

/-- Each job of an import finds its name free when it is written. -/
theorem NamesUnique.applyImportJobs {jobs : List ImportJob}
    (hs : s.NamesUnique) (h : s.applyImportJobs now jobs = .ok s') : s'.NamesUnique := by
  induction jobs generalizing s with
  | nil =>
    cases h
    exact hs
  | cons job jobs ih =>
    unfold Store.applyImportJobs at h
    split at h
    · cases h
    next s₁ hjob =>
    refine ih ?_ h
    cases job with
    | create resolution job =>
      obtain ⟨hfree, hjob⟩ := Except.guard_eq_ok.mp hjob
      obtain ⟨s₂, hs₂, hjob⟩ := Except.bind_eq_ok.mp hjob
      cases hjob
      exact hs.created (Bool.eq_false_of_not_eq_true hfree) (insertJob_ok hs₂).jobs
    | update resolution job =>
      obtain ⟨hfree, hjob⟩ := Except.guard_eq_ok.mp hjob
      obtain ⟨s₂, hs₂, hjob⟩ := Except.bind_eq_ok.mp hjob
      cases hjob
      have hjobs := find_jobs_reviseJob hs₂
      exact hs.revised (Bool.eq_false_of_not_eq_true hfree) hjobs
    | verify resolution job =>
      cases hjob
      exact hs

theorem NamesUnique.apply {op : Op} (hs : s.NamesUnique) (h : s.apply op = .ok s') :
    s'.NamesUnique := by
  cases hedits : op.edits with
  | false =>
    refine KeepsNames.namesUnique ?_ hs
    cases hqueues : op.queues with
    | false =>
      obtain ⟨finished, hsettles, -⟩ := apply_settles hedits hqueues h
      obtain ⟨now, hjobs⟩ := hsettles.jobs
      refine keepsNames_of_map hjobs ?_ ?_
      · intro id j
        split <;> rfl
      · intro id j
        split
        · exact fun hnone => by cases hnone
        · exact fun hnone => hnone
    | true =>
      cases op with
      | enqueueManual job revision snapshot run now =>
        obtain ⟨policy, -, hkeeps, -⟩ := enqueueManual_ok h
        exact keepsNames_of_jobs_eq hkeeps.jobs
      | materialize job cursor runs summaries now =>
        obtain ⟨⟨result, s₁⟩, hs₁, rfl⟩ := Except.map_eq_ok.mp h
        obtain ⟨prepared, s₂, s₃, -, hcursor, hruns, rfl⟩ := materialize_ok hs₁
        obtain ⟨-, -, -, -, hjobs, -⟩ := advanceCursor_ok hcursor
        have hkeeps : KeepsDefinitions s₂ s₃ :=
          materializeRuns_induction (motive := fun x => KeepsDefinitions s₂ x)
            (fun _ hx hrun => hx.trans (materializeRun_ok hrun).1) (.refl s₂) hruns
        have hsame : (s₃.recordSummaries job summaries now).jobs = s₂.jobs :=
          (recordSummaries_keeps s₃ job summaries now).1.jobs.trans hkeeps.jobs
        refine keepsNames_of_map (fun id => by rw [hsame, hjobs]) ?_ ?_
        · intro id j
          split <;> rfl
        · intro id j
          split <;> exact fun hnone => hnone
      | _ => cases hqueues
  | true =>
    cases op with
    | createJob job =>
      have hguard := (Except.guard_eq_ok.mp h).1
      simp only [Bool.or_eq_true, not_or, Bool.not_eq_true] at hguard
      exact hs.created hguard.2 (createJob_ok h).jobs
    | updateJob job =>
      have hrevised := updateJob_ok h
      simp only [Store.apply, Store.updateJob] at h
      split at h
      · cases h
      obtain ⟨-, h⟩ := Except.guard_eq_ok.mp h
      obtain ⟨hfree, -⟩ := Except.guard_eq_ok.mp h
      exact hs.revised (Bool.eq_false_of_not_eq_true hfree) hrevised.jobs
    | applyImport batch =>
      simp only [Store.apply, Store.applyImport] at h
      split at h
      · cases h
      split at h
      · cases h
      split at h
      · cases h
      next s₁ hs₁ =>
      cases h
      have hs₁' : s₁.NamesUnique := hs.applyImportJobs hs₁
      exact hs₁'
    | setEnabled job enabled now =>
      obtain ⟨-, -, -, -, -, hjobs, -⟩ := setEnabled_ok h
      refine (keepsNames_of_map hjobs ?_ ?_).namesUnique hs
      · intro id j
        split <;> rfl
      · intro id j
        split <;> exact fun hnone => hnone
    | removeJob job now =>
      obtain ⟨-, -, -, -, hjobs⟩ := removeJob_ok h
      refine (keepsNames_of_map hjobs ?_ ?_).namesUnique hs
      · intro id j
        split <;> rfl
      · intro id j
        split
        · exact fun hnone => by cases hnone
        · exact fun hnone => hnone
    | _ => cases hedits

/-- **Live names are unique.** -/
theorem Reachable.namesUnique {allowed : Store → Op → Prop} (h : Reachable allowed s) :
    s.NamesUnique :=
  h.induction (fun _ _ _ _ hj => by cases hj) (fun hs _ happly => hs.apply happly)

/-- **After every sequence of operations** each attempt has a run, each run a job and each cursor a
revision, queue numbers are below the counter, and neither live names nor occurrences are
repeated. -/
theorem schema_holds {allowed : Store → Op → Prop} (h : Reachable allowed s) :
    s.Owned ∧ s.Linked ∧ s.NamesUnique ∧ s.OccurrencesUnique :=
  ⟨h.owned, h.linked, h.namesUnique, h.occurrencesUnique⟩

/-- An hourly job. -/
def hourlyRow : Snapshot := .job ⟨.every 3600000000 0, .default, .retain, "true"⟩

/-- Two jobs; the first hour of one of them is admitted. -/
def firstHourAdmitted : List Op :=
  [.createJob ⟨1, "first", none, "[]", true, hourlyRow, 0, 0⟩,
   .createJob ⟨2, "second", none, "[]", true, hourlyRow, 0, 0⟩,
   .beginLifetime 3 3600000000,
   .materialize 1 ⟨1, 0, 3600000000, false⟩
    [⟨4, 1, 1, .scheduled, 3600000000, 3600000000, 3600000000, hourlyRow⟩] [] 3600000000,
   .admitRuns (fun _ => some hourlyRow) 3 3600000000 1]

theorem schema_holds_admitted : ∃ s : Store, Reachable anyOp s ∧
    ((s.liveJob 1).isSome ∧ (s.liveJob 2).isSome) ∧
    (∃ a ∈ s.attempts.rows, a.runId = 4) ∧
    (∃ r ∈ s.runs.rows, r.id = 4 ∧ r.trigger = .scheduled ∧ r.nominal = some 3600000000) ∧
    s.Owned ∧ s.Linked ∧ s.NamesUnique ∧ s.OccurrencesUnique := by
  obtain ⟨s, hs, hlive, hattempt, hrun⟩ := exists_reachable anyOp firstHourAdmitted
    (fun s => ((s.liveJob 1).isSome = true ∧ (s.liveJob 2).isSome = true) ∧
      (∃ a ∈ s.attempts.rows, a.runId = 4) ∧
      ∃ r ∈ s.runs.rows, r.id = 4 ∧ r.trigger = .scheduled ∧ r.nominal = some 3600000000)
    (fun _ _ _ => trivial) (by decide +kernel)
  exact ⟨s, hs, hlive, hattempt, hrun, schema_holds hs⟩

end Store

end Locron
