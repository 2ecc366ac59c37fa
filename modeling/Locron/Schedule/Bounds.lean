import Locron.Lib.Fallible
import Locron.Schedule.Exactness

set_option autoImplicit false

/-! # Selected occurrences are occurrences of the reconciled range

Whatever the schedule and the zone, and however far out the instants are: a reconciliation of
`(after, now]` that succeeds selects only occurrences in `(after, now]`, none of them twice.
-/

namespace Locron

/-- Distinct occurrences, all of them in `(after, through]`. -/
structure SelectsFrom (occurs : Int → Prop) (after through : Int) (l : List Int) : Prop where
  nodup : l.Nodup
  between : ∀ t ∈ l, after < t ∧ t ≤ through
  occurs : ∀ t ∈ l, occurs t

theorem SelectsFrom.nil (occurs : Int → Prop) (after through : Int) :
    SelectsFrom occurs after through [] :=
  ⟨List.nodup_nil, by simp, by simp⟩

/-! ## Intervals -/

variable {anchor after through : Int}

theorem validInterval_of_bounds {interval : Nat} {bounds : Option (Int × Int × Int)}
    (h : intervalBounds interval anchor after through = .ok bounds) : ValidInterval interval := by
  unfold intervalBounds i64OfNat at h
  split at h
  · cases h
  next step hstep =>
  obtain ⟨hmax, hstep⟩ := Option.ite_none_right_eq_some.mp hstep
  cases hstep
  obtain ⟨hwhole, -⟩ := Except.guard_eq_ok.mp h
  refine ⟨hmax, ?_, ?_⟩ <;> omega

theorem intervalAt_ok {step index t : Int} (h : intervalAt anchor step index = .ok t) :
    t = anchor + index * step := by
  unfold intervalAt checked at h
  split at h
  · cases h
  next hchecked =>
  cases h
  simp only [Option.bind_eq_some_iff, Option.ite_none_right_eq_some,
    Option.some.injEq] at hchecked
  obtain ⟨product, ⟨-, rfl⟩, -, hsum⟩ := hchecked
  exact hsum.symm

variable {l : List Int}

theorem intervalAll_ok {step : Int} {indexes : List Int}
    (h : intervalAll anchor step indexes = .ok l) :
    l = indexes.map (fun index => anchor + index * step) := by
  induction indexes generalizing l with
  | nil =>
    cases h
    rfl
  | cons index rest ih =>
    unfold intervalAll at h
    split at h
    · cases h
    next t ht =>
    split at h
    · cases h
    next ts hts =>
    cases h
    rw [intervalAt_ok ht, ih hts, List.map_cons]

theorem mem_of_bounds {interval : Nat} {step first last : Int}
    (h : intervalBounds interval anchor after through = .ok (some (step, first, last))) :
    step = interval ∧ 0 ≤ first ∧ first ≤ last ∧ ∀ index, first ≤ index → index ≤ last →
      anchor + index * step ∈ intervalList interval anchor after through := by
  rw [intervalBounds_eq (validInterval_of_bounds h), Except.ok.injEq,
    Option.ite_none_right_eq_some] at h
  obtain ⟨hle, h⟩ := h
  cases h
  exact ⟨rfl, le_max_left _ _, hle, fun index hlow hhigh =>
    List.mem_map.mpr ⟨index, Int.mem_range_iff.mpr ⟨hlow, Int.lt_add_one_of_le hhigh⟩, rfl⟩⟩

theorem intervalNewest_selects {interval : Nat} {limit : Nat}
    (h : intervalNewest interval anchor after through limit = .ok l) :
    SelectsFrom (fun t => ∃ k : Nat, t = anchor + k * interval) after through l := by
  unfold intervalNewest at h
  split at h
  · cases h
  · cases h
    exact .nil _ after through
  next step first last hbounds =>
  have hv := validInterval_of_bounds hbounds
  obtain ⟨rfl, -, -, hindex⟩ := mem_of_bounds hbounds
  have hpos : interval ≠ 0 := by
    have := hv.whole_seconds.1
    omega
  have hl := intervalAll_ok h
  have hmem : ∀ t ∈ l, t ∈ intervalList interval anchor after through := by
    intro t ht
    rw [hl] at ht
    obtain ⟨index, hrange, rfl⟩ := List.mem_map.mp ht
    obtain ⟨hlow, hhigh⟩ := Int.mem_range_iff.mp hrange
    exact hindex index (le_trans (le_max_left _ _) hlow) (by omega)
  refine ⟨?_, fun t ht => ?_, fun t ht => ?_⟩
  · rw [hl]
    refine List.Nodup.map ?_ (List.sortedLT_iff_pairwise.mp (Blocks.sortedLT_range _ _)).nodup
    intro i j hij
    simpa [hpos] using hij
  · obtain ⟨hlow, hhigh, -⟩ := (mem_intervalList hv).mp (hmem t ht)
    exact ⟨hlow, hhigh⟩
  · obtain ⟨-, -, k, hk, -⟩ := (mem_intervalList hv).mp (hmem t ht)
    exact ⟨k, hk⟩

/-! ## Calendar expressions -/

theorem keepNewest_sublist {limit : Nat} {cs newest : List Int} {full : Bool}
    (h : keepNewest after through limit cs newest = (full, l)) :
    ∃ kept : List Int, kept.Sublist cs ∧ (∀ t ∈ kept, after < t ∧ t ≤ through) ∧
      l = kept.reverse ++ newest := by
  induction cs generalizing newest with
  | nil =>
    cases h
    exact ⟨[], .slnil, by simp, rfl⟩
  | cons c rest ih =>
    unfold keepNewest at h
    split at h
    · next hc =>
      split at h
      · cases h
        exact ⟨[c], by simp, by simpa using hc, rfl⟩
      · obtain ⟨kept, hsub, hrange, rfl⟩ := ih h
        exact ⟨c :: kept, hsub.cons_cons c, by simpa using ⟨hc, hrange⟩, by simp⟩
    · obtain ⟨kept, hsub, hrange, rfl⟩ := ih h
      exact ⟨kept, hsub.cons c, hrange, rfl⟩

namespace CronExpression

variable (e : CronExpression) {zone : Zone}

theorem previousDate_lt {date previous : Date} (h : e.previousDate date = .ok (some previous)) :
    previous.day < date.day := by
  unfold previousDate at h
  split at h
  · cases h
  next yesterday hyesterday =>
  obtain ⟨t, ht, -, hle, -⟩ := e.matchingDateAtOrBefore_spec yesterday
  rw [ht, Except.ok.injEq] at h
  have hday := Date.fromDay_eq_some.mp h
  have hbefore := Date.fromDay_eq_some.mp hyesterday
  omega

/-- Occurrences of one more date, in front of those of later dates. -/
theorem selects_append {day : Int} {newest kept : List Int}
    (hnewest : SelectsFrom (e.Occurs zone) after through newest)
    (hlater : ∀ t ∈ newest, day < zone.localDay t)
    (hsub : kept.Sublist (e.dayOccurrences zone day).reverse)
    (hrange : ∀ t ∈ kept, after < t ∧ t ≤ through) :
    SelectsFrom (e.Occurs zone) after through (kept.reverse ++ newest) := by
  have hmem : ∀ t ∈ kept, t ∈ e.dayOccurrences zone day :=
    fun t ht => List.mem_reverse.mp (hsub.subset ht)
  have hday : ∀ t ∈ kept, zone.localDay t = day := fun t ht => e.localDay_of_mem zone (hmem t ht)
  have hnodup : kept.Nodup := hsub.nodup (List.nodup_reverse.mpr
    (List.sortedLT_iff_pairwise.mp (e.sortedLT_dayOccurrences zone day)).nodup)
  refine ⟨?_, ?_, ?_⟩
  · refine List.Nodup.append (List.nodup_reverse.mpr hnodup) hnewest.nodup ?_
    intro t hkept hold
    have h₁ := hday t (List.mem_reverse.mp hkept)
    have h₂ := hlater t hold
    omega
  all_goals
    intro t ht
    rcases List.mem_append.mp ht with ht | ht
  · exact hrange t (List.mem_reverse.mp ht)
  · exact hnewest.between t ht
  · exact ⟨day, hmem t (List.mem_reverse.mp ht)⟩
  · exact hnewest.occurs t ht

/-- The walk puts occurrences of one date after the other in front of what it has, and what it has
shows later dates than the date it visits: a property that each date preserves holds at the end. -/
theorem newestLoop_induction {motive : List Int → Prop} {limit : Nat}
    {lower : Date} {fuel : Nat} {date : Option Date} {newest : List Int}
    (hstep : ∀ {day : Int} {newest kept : List Int}, motive newest →
      (∀ t ∈ newest, day < zone.localDay t) →
      kept.Sublist (e.dayOccurrences zone day).reverse → (∀ t ∈ kept, after < t ∧ t ≤ through) →
      motive (kept.reverse ++ newest))
    (h : e.newestLoop after through limit zone lower fuel date newest = .ok l)
    (hnewest : motive newest) (hlater : ∀ d ∈ date, ∀ t ∈ newest, d.day < zone.localDay t) :
    motive l := by
  induction fuel generalizing date newest with
  | zero =>
    cases date with
    | none =>
      cases h
      exact hnewest
    | some date => cases h
  | succ fuel ih =>
    cases date with
    | none =>
      cases h
      exact hnewest
    | some date =>
      unfold newestLoop at h
      split at h
      · cases h
        exact hnewest
      split at h
      · cases h
      next candidates hcandidates =>
      rw [candidatesOnDate_eq] at hcandidates
      split at hcandidates
      · cases hcandidates
        split at h
        · next hkeep =>
          cases h
          obtain ⟨kept, hsub, hrange, rfl⟩ := keepNewest_sublist hkeep
          exact hstep hnewest (hlater date rfl) hsub hrange
        · next hkeep =>
          obtain ⟨kept, hsub, hrange, rfl⟩ := keepNewest_sublist hkeep
          split at h
          · cases h
          next previous hprevious =>
          refine ih h (hstep hnewest (hlater date rfl) hsub hrange) ?_
          rintro d rfl t ht
          have hlt : d.day < date.day := e.previousDate_lt hprevious
          rcases List.mem_append.mp ht with ht | ht
          · have hday : zone.localDay t = date.day := e.localDay_of_mem zone
              (List.mem_reverse.mp (hsub.subset (List.mem_reverse.mp ht)))
            omega
          · exact hlt.trans (hlater date rfl t ht)
      · cases hcandidates

theorem newestLoop_selects {limit : Nat} {lower : Date} {fuel : Nat} {date : Option Date}
    (h : e.newestLoop after through limit zone lower fuel date [] = .ok l) :
    SelectsFrom (e.Occurs zone) after through l :=
  e.newestLoop_induction e.selects_append h (.nil _ after through) (by simp)

end CronExpression

/-! ## Reconciliation -/

namespace CompiledSchedule

variable {s : CompiledSchedule} {zones : ZoneTable} {localZone : Zone} {after now : Int}

/-- **What the newest occurrences are**: distinct occurrences of the range. -/
theorem newestBetween_selects {limit : Nat}
    (h : s.newestBetween zones localZone after now limit = .ok l) :
    SelectsFrom (s.Occurs zones localZone) after now l := by
  unfold newestBetween at h
  split at h
  · cases h
    exact .nil _ after now
  cases s with
  | «at» at_ =>
    cases h
    refine ⟨(List.sortedLT_iff_pairwise.mp (sortedLT_atList at_ after now)).nodup, ?_, ?_⟩
    · intro t ht
      exact ((mem_atList at_).mp ht).2
    · intro t ht
      exact ((mem_atList at_).mp ht).1
  | every interval anchor => exact intervalNewest_selects h
  | cron e timezone =>
    simp only at h
    split at h
    · cases h
    next zone hzone =>
    obtain ⟨lower, -, h⟩ := Except.bind_eq_ok.mp h
    obtain ⟨upper, -, h⟩ := Except.bind_eq_ok.mp h
    obtain ⟨date, -, h⟩ := Except.bind_eq_ok.mp h
    have hselects := e.newestLoop_selects h
    exact ⟨hselects.nodup, hselects.between,
      fun t ht => ⟨zone, hzone, hselects.occurs t ht⟩⟩

theorem mem_retained {missedRun : MissedRunPolicy} {t : Int}
    (h : t ∈ retained missedRun l) : t ∈ l := by
  cases missedRun with
  | all => exact h
  | skip => cases h
  | latest => exact List.mem_of_mem_drop h

theorem mem_of_selectOccurrences {elapsed : ElapsedKind} {missedRun : MissedRunPolicy}
    {newest : List Int} {o : SelectedOccurrence}
    (h : o ∈ selectOccurrences elapsed missedRun newest) : o.nominal ∈ newest := by
  unfold selectOccurrences at h
  split at h
  · obtain ⟨t, ht, rfl⟩ := List.mem_map.mp h
    exact mem_retained ht
  split at h
  · cases h
  next normal hlast =>
  rcases List.mem_append.mp h with h | h
  · obtain ⟨t, ht, rfl⟩ := List.mem_map.mp h
    exact List.mem_of_mem_dropLast (mem_retained ht)
  · rw [List.mem_singleton.mp h]
    exact List.mem_of_getLast? hlast

theorem le_deadlineAfter (after now : Int) (startDeadline : Option Nat) :
    after ≤ deadlineAfter after now startDeadline := by
  cases startDeadline with
  | none => exact le_refl after
  | some deadline => exact le_max_left _ _

section Reconcile

variable {missedRun : MissedRunPolicy} {startDeadline : Option Nat} {limit : Nat}
  {elapsed : ElapsedKind} {r : ScheduleReconciliation}
  (h : s.reconcile zones localZone after now missedRun startDeadline limit elapsed = .ok r)

include h

/-- A successful reconciliation selects from the newest occurrences after the deadline. -/
theorem selected_of_reconcile :
    (now ≤ after ∧ r.selected = []) ∨ ∃ newest,
      s.newestBetween zones localZone (deadlineAfter after now startDeadline) now
        (limit + currentCount elapsed) = .ok newest ∧
      r.selected = selectOccurrences elapsed missedRun newest := by
  by_cases hlt : after < now
  · obtain ⟨_, _, newest, _, -, -, hnewest, -, rfl⟩ := reconcile_ok hlt h
    exact Or.inr ⟨newest, hnewest, rfl⟩
  · unfold reconcile at h
    obtain ⟨-, h⟩ := Except.guard_eq_ok.mp h
    rw [if_pos (by omega)] at h
    cases h
    exact Or.inl ⟨by omega, rfl⟩

/-- **The selected occurrences lie in `(after, now]`.** -/
theorem selected_between : ∀ o ∈ r.selected, after < o.nominal ∧ o.nominal ≤ now := by
  intro o ho
  rcases selected_of_reconcile h with ⟨-, hnil⟩ | ⟨newest, hnewest, hselected⟩
  · rw [hnil] at ho
    cases ho
  rw [hselected] at ho
  obtain ⟨hlow, hhigh⟩ := (newestBetween_selects hnewest).between _
    (mem_of_selectOccurrences ho)
  exact ⟨lt_of_le_of_lt (le_deadlineAfter after now startDeadline) hlow, hhigh⟩

/-- In a missed range everything selected is catch-up work. -/
theorem catchUp_of_missed (hmissed : elapsed = .missed) : ∀ o ∈ r.selected, o.catchUp = true := by
  intro o ho
  rcases selected_of_reconcile h with ⟨-, hnil⟩ | ⟨newest, -, hselected⟩
  · rw [hnil] at ho
    cases ho
  rw [hselected, hmissed] at ho
  obtain ⟨t, -, rfl⟩ := List.mem_map.mp ho
  rfl

/-- In a normal range the newest occurrence is current work. -/
theorem newest_selected_of_normal (hlt : after < now) (hnormal : elapsed = .normal)
    {newest : List Int} {o : Int}
    (hnewest : s.newestBetween zones localZone (deadlineAfter after now startDeadline) now
      (limit + 1) = .ok newest) (hlast : newest.getLast? = some o) :
    ⟨o, false⟩ ∈ r.selected := by
  subst hnormal
  rcases selected_of_reconcile h with ⟨hle, -⟩ | ⟨newest', hnewest', hselected⟩
  · omega
  cases hnewest.symm.trans hnewest'
  rw [hselected]
  simp [selectOccurrences, hlast]

end Reconcile

end CompiledSchedule

end Locron
