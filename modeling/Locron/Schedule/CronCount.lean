import Locron.Lib.Increasing
import Locron.Schedule.CronWalk

set_option autoImplicit false

/-! # The closed-form count

`rangeCount` multiplies the matching dates by the times of a day and corrects the product on the
exceptional dates. For an arbitrary zone this is the length of the enumeration as soon as every
other date has all its times in the range (`rangeCount_eq`); a boundary date whose times leave the
supported instants makes the count fail (`rangeCount_error`).
-/

namespace Locron

/-! ## The exceptional dates -/

/-- The dates from `date` to `last` are added. -/
theorem insertDates_spec (last : Date) (fuel : Nat) (date : Date) (dates : OrdSet Date)
    (hle : date.day ≤ last.day) (hfuel : last.day - date.day < fuel) :
    ∃ result, insertDates last fuel date dates = .ok result ∧
      ∀ d : Date, d ∈ result ↔ d ∈ dates ∨ date.day ≤ d.day ∧ d.day ≤ last.day := by
  induction fuel generalizing date dates with
  | zero => omega
  | succ fuel ih =>
    have hdate : ∀ d : Date, d = date ↔ d.day = date.day :=
      fun d => ⟨fun h => congrArg Date.day h, Date.ext⟩
    unfold insertDates
    by_cases hlast : last.day ≤ date.day
    · refine ⟨_, if_pos hlast, fun d => ?_⟩
      rw [OrdSet.mem_insert, hdate, or_comm]
      exact or_congr_right (by omega)
    · rw [if_neg hlast]
      obtain ⟨next, hnext⟩ : ∃ next, date.tomorrow = some next := by
        have := last.le_max
        have := date.min_le
        exact ⟨⟨date.day + 1, by omega, by omega⟩, Date.fromDay_eq_some.mpr rfl⟩
      have hday := Date.fromDay_eq_some.mp hnext
      rw [hnext]
      obtain ⟨result, hok, hmem⟩ := ih next (dates.insert date) (by omega) (by omega)
      refine ⟨result, hok, fun d => ?_⟩
      rw [hmem, OrdSet.mem_insert, hdate, or_comm (b := d ∈ dates), or_assoc]
      exact or_congr_right (by omega)

/-- The wall clock jumps forward at the transition. -/
def ForwardAt (zone : Zone) (tr : Transition) : Prop :=
  zone.localTime (tr.timestamp - 1) < zone.localTime tr.timestamp

/-- The walk over the transitions succeeds and adds the dates that the forward jumps touch. -/
theorem transitionDates_spec (zone : Zone) {after through : Int} (ha : Supported after)
    (ht : Supported through) (trs : List Transition) (dates : OrdSet Date)
    (hsorted : trs.Pairwise (fun a b => a.timestamp < b.timestamp))
    (hafter : ∀ tr ∈ trs, after < tr.timestamp) :
    ∃ result, transitionDates zone through trs dates = .ok result ∧
      ∀ d : Date, d ∈ result ↔ d ∈ dates ∨ ∃ tr ∈ trs, tr.timestamp ≤ through ∧
        ForwardAt zone tr ∧ zone.localDay (tr.timestamp - 1) ≤ d.day ∧
          d.day ≤ zone.localDay tr.timestamp := by
  induction trs generalizing dates with
  | nil => exact ⟨dates, rfl, by simp⟩
  | cons tr rest ih =>
    rcases List.pairwise_cons.mp hsorted with ⟨hfirst, hrest⟩
    have htr := hafter tr (by simp)
    have ih := fun dates => ih dates hrest fun tr' htr' => hafter tr' (by simp [htr'])
    unfold transitionDates
    by_cases hbreak : through < tr.timestamp
    · -- the transitions behind the first one after `through` are after it, too
      refine ⟨dates, if_pos hbreak, fun d => ⟨Or.inl, ?_⟩⟩
      rintro (hd | ⟨tr', htr', hle, -⟩)
      · exact hd
      rcases List.mem_cons.mp htr' with rfl | hmem
      · omega
      · have := hfirst tr' hmem
        omega
    · rw [if_neg hbreak]
      have hbefore : Supported (tr.timestamp - 1) := ha.mono ht (by omega) (by omega)
      have hat : Supported tr.timestamp := ha.mono ht (by omega) (by omega)
      simp only [dateOf, hbefore, hat, dif_pos, List.mem_cons, exists_eq_or_imp]
      by_cases hfwd : zone.localTime (tr.timestamp - 1) < zone.localTime tr.timestamp
      · rw [if_pos hfwd]
        have hdays : zone.localDay (tr.timestamp - 1) ≤ zone.localDay tr.timestamp := by
          unfold Zone.localDay dayMicros
          omega
        obtain ⟨mid, hmid, hadded⟩ := insertDates_spec (zone.dateAt tr.timestamp hat)
          (((zone.dateAt tr.timestamp hat).day
            - (zone.dateAt (tr.timestamp - 1) hbefore).day).toNat + 1)
          (zone.dateAt (tr.timestamp - 1) hbefore) dates hdays (by omega)
        obtain ⟨result, hok, hmem⟩ := ih mid
        rw [hmid]
        refine ⟨result, hok, fun d => ?_⟩
        have hjump : ForwardAt zone tr := hfwd
        rw [hmem, hadded, or_assoc]
        simp only [not_lt.mp hbreak, hjump, true_and]
        rfl
      · rw [if_neg hfwd]
        obtain ⟨result, hok, hmem⟩ := ih dates
        refine ⟨result, hok, fun d => ?_⟩
        have hjump : ¬ ForwardAt zone tr := hfwd
        rw [hmem]
        simp only [hjump, false_and, and_false, false_or]

/-! ## The correction -/

namespace CronExpression

variable (e : CronExpression) (zone : Zone) {after through : Int} {lower upper : Date}
  {timeCount : Nat}

/-- Replacing the value of one summand. -/
theorem sum_update {s : Finset Int} (F : Int → Nat) {d : Int} (hd : d ∈ s) (v : Nat) :
    ∑ x ∈ s, F x - F d + v = ∑ x ∈ s, Function.update F d v x := by
  rw [Finset.sum_update_of_mem hd, ← Finset.add_sum_erase s F hd, Finset.sdiff_singleton_eq_erase]
  omega

/-- The correction replaces the assumed count of each listed date by the length of its block. -/
theorem correctCount_eq (dates : List Date) (F : Int → Nat) (hnodup : dates.Nodup)
    (hF : ∀ d ∈ dates, lower.day ≤ d.day → d.day ≤ upper.day → e.dateMatches d.day = true →
      F d.day = timeCount)
    (hsup : ∀ d ∈ dates, lower.day ≤ d.day → d.day ≤ upper.day → e.DaySupported zone d.day) :
    e.correctCount after through zone lower upper timeCount dates
        (∑ d ∈ Finset.Ico lower.day (upper.day + 1), F d)
      = .ok (∑ d ∈ Finset.Ico lower.day (upper.day + 1),
          if d ∈ dates.map Date.day ∧ e.dateMatches d = true
          then (e.block zone after through d).length else F d) := by
  -- `F` is what each date counts for so far, and every corrected date changes it at one place
  induction dates generalizing F with
  | nil => simp [correctCount]
  | cons date rest ih =>
    rcases List.nodup_cons.mp hnodup with ⟨hnot, hrest⟩
    unfold correctCount
    by_cases hskip : date.day < lower.day ∨ upper.day < date.day ∨ ¬ e.dateMatches date.day
    · rw [if_pos hskip, ih F hrest (fun d hd => hF d (by simp [hd]))
        (fun d hd => hsup d (by simp [hd]))]
      congr 1
      apply Finset.sum_congr rfl
      intro d hd
      rw [Finset.mem_Ico] at hd
      have hne : e.dateMatches d = true → d ≠ date.day := by
        rintro hm rfl
        rcases hskip with h | h | h
        · omega
        · omega
        · exact h hm
      have hiff : (d ∈ (date :: rest).map Date.day ∧ e.dateMatches d = true)
          ↔ (d ∈ rest.map Date.day ∧ e.dateMatches d = true) := by
        rw [List.map_cons, List.mem_cons]
        constructor
        · rintro ⟨rfl | h, hm⟩
          · exact absurd rfl (hne hm)
          · exact ⟨h, hm⟩
        · rintro ⟨h, hm⟩
          exact ⟨Or.inr h, hm⟩
      simp only [hiff]
    · rw [if_neg hskip]
      push Not at hskip
      obtain ⟨h1, h2, h3⟩ := hskip
      have hmem : date.day ∈ Finset.Ico lower.day (upper.day + 1) :=
        Finset.mem_Ico.mpr ⟨h1, by omega⟩
      rw [e.candidatesOnDate_eq, if_pos (hsup date (by simp) h1 h2)]
      simp only
      have hblock : ((e.dayOccurrences zone date.day).filter
          (fun c => decide (after < c ∧ c ≤ through))).length
          = (e.block zone after through date.day).length := rfl
      rw [hblock, ← hF date (by simp) h1 h2 h3, sum_update F hmem,
        hF date (by simp) h1 h2 h3]
      rw [ih (Function.update F date.day _) hrest ?_ (fun d hd => hsup d (by simp [hd]))]
      · congr 1
        apply Finset.sum_congr rfl
        intro d _
        by_cases heq : d = date.day
        · subst heq
          simp [h3]
        · simp [heq]
      · intro d hd h1' h2' h3'
        have hne : d.day ≠ date.day := by
          intro heq
          exact hnot (Date.ext heq ▸ hd)
        rw [Function.update_of_ne hne]
        exact hF d (by simp [hd]) h1' h2' h3'

theorem correctCount_error (dates : List Date) (count : Nat) {date : Date} (hmem : date ∈ dates)
    (h1 : lower.day ≤ date.day) (h2 : date.day ≤ upper.day)
    (hsup : ¬ e.DaySupported zone date.day) :
    e.correctCount after through zone lower upper timeCount dates count
      = .error (cronError outOfRangeText) := by
  have hmatch : e.dateMatches date.day = true := by
    by_contra hcon
    exact hsup (fun h => absurd h hcon)
  induction dates generalizing count with
  | nil => exact absurd hmem List.not_mem_nil
  | cons first rest ih =>
    unfold correctCount
    rw [e.candidatesOnDate_eq]
    rcases List.mem_cons.mp hmem with rfl | hrest
    · rw [if_neg (by simp [hmatch]; omega), if_neg hsup]
    split
    · exact ih count hrest
    by_cases hfirst : e.DaySupported zone first.day
    · rw [if_pos hfirst]
      exact ih _ hrest
    · rw [if_neg hfirst]

/-! ## The count -/

theorem length_slots : e.slots.length = e.hour.allowed.size * e.minute.allowed.size := by
  simp [CronFields.slots, OrdSet.size, List.length_flatMap]

theorem matching_mul_eq (first last : Date) (timeCount : Nat) :
    e.matchingDaysInclusive first last * timeCount
      = ∑ d ∈ Finset.Ico first.day (last.day + 1), if e.dateMatches d then timeCount else 0 := by
  rw [e.matchingDaysInclusive_eq, ← Finset.sum_filter, Finset.sum_const, smul_eq_mul]
  congr 1
  have hnodup : ((Int.range first.day (last.day + 1)).filter e.dateMatches).Nodup :=
    (Blocks.sortedLT_range _ _).nodup.filter _
  rw [← List.toFinset_card_of_nodup hnodup]
  congr 1
  ext d
  simp [Int.mem_range_iff, Finset.mem_Ico]

/-- A date the correction need not visit: strictly inside, and touched by no forward jump. -/
def Regular (zone : Zone) (after through d : Int) : Prop :=
  zone.localDay after < d ∧ d < zone.localDay through ∧
    ∀ tr ∈ zone.transitions, after < tr.timestamp → tr.timestamp ≤ through → ForwardAt zone tr →
      d < zone.localDay (tr.timestamp - 1) ∨ zone.localDay tr.timestamp < d

instance (zone : Zone) (tr : Transition) : Decidable (ForwardAt zone tr) :=
  inferInstanceAs (Decidable (_ < _))

instance (zone : Zone) (after through d : Int) : Decidable (Regular zone after through d) :=
  inferInstanceAs (Decidable (_ ∧ _ ∧ _))

/-- The exceptional dates of the range are those that are not regular. -/
theorem exceptional_spec (ha : Supported after) (ht : Supported through) :
    ∃ dates, transitionDates zone through (zone.following after)
        ((OrdSet.empty.insert (zone.dateAt after ha)).insert (zone.dateAt through ht)) = .ok dates ∧
      ∀ d : Date, zone.localDay after ≤ d.day → d.day ≤ zone.localDay through →
        (d ∈ dates ↔ ¬ Regular zone after through d.day) := by
  obtain ⟨dates, hok, hmem⟩ := transitionDates_spec zone ha ht (zone.following after)
    ((OrdSet.empty.insert (zone.dateAt after ha)).insert (zone.dateAt through ht))
    (zone.sorted.filter _) (fun tr htr => (zone.mem_following.mp htr).2)
  refine ⟨dates, hok, fun d h1 h2 => ?_⟩
  rw [hmem, OrdSet.mem_insert, OrdSet.mem_insert]
  constructor
  · rintro ((rfl | rfl | hempty) | ⟨tr, htr, hle, hfwd, hbefore, hat⟩) ⟨hlo, hhi, htouch⟩
    · exact lt_irrefl _ hhi
    · exact lt_irrefl _ hlo
    · exact OrdSet.not_mem_empty _ hempty
    · obtain ⟨htr, hgt⟩ := zone.mem_following.mp htr
      rcases htouch tr htr hgt hle hfwd with h | h <;> omega
  · intro hexceptional
    by_contra hnot
    push Not at hnot
    obtain ⟨⟨hthrough, hafter, -⟩, htouch⟩ := hnot
    refine hexceptional ⟨lt_of_le_of_ne h1 fun h => hafter (Date.ext h.symm),
      lt_of_le_of_ne h2 fun h => hthrough (Date.ext h), ?_⟩
    intro tr htr hgt hle hfwd
    by_contra hcon
    push Not at hcon
    exact absurd (htouch tr (zone.mem_following.mpr ⟨htr, hgt⟩) hle hfwd hcon.1) (by omega)

/-- What the closed form counts on a date: all times of a regular one, the real ones of others. -/
def countedOn (after through d : Int) : Nat :=
  if Regular zone after through d ∧ e.dateMatches d = true then e.slots.length
  else (e.block zone after through d).length

noncomputable def counted (after through : Int) : Nat :=
  ∑ d ∈ Finset.Ico (zone.localDay after) (zone.localDay through + 1),
    e.countedOn zone after through d

/-- **What `rangeCount` returns**, if the exceptional dates can be enumerated. -/
theorem rangeCount_eq (ha : Supported after) (ht : Supported through)
    (hsup : ∀ d, zone.localDay after ≤ d → d ≤ zone.localDay through →
      ¬ Regular zone after through d → e.DaySupported zone d) :
    e.rangeCount after through zone = .ok (e.counted zone after through) := by
  obtain ⟨dates, hok, hmem⟩ := exceptional_spec zone ha ht
  unfold rangeCount dateOf
  simp only [ha, ht, dif_pos, bind, Except.bind, hok]
  rw [← e.length_slots, e.matching_mul_eq, e.correctCount_eq zone dates.toList _
    dates.sorted.nodup (by intro d _ _ _ hm; rw [if_pos hm])
    (fun d hd h1 h2 => hsup d.day h1 h2 ((hmem d h1 h2).mp hd))]
  congr 1
  apply Finset.sum_congr rfl
  intro d hd
  rw [Finset.mem_Ico] at hd
  unfold countedOn
  by_cases hm : e.dateMatches d = true
  · have hdmin := (zone.dateAt after ha).min_le
    have hdmax := (zone.dateAt through ht).le_max
    have hd1 : (zone.dateAt after ha).day ≤ d := hd.1
    have hd2 : d ≤ (zone.dateAt through ht).day := by omega
    have hlisted : d ∈ dates.toList.map Date.day ↔ ¬ Regular zone after through d := by
      rw [← hmem ⟨d, hdmin.trans hd1, hd2.trans hdmax⟩ hd1 hd2, List.mem_map]
      constructor
      · rintro ⟨date, hdate, rfl⟩
        exact hdate
      · exact fun h => ⟨_, h, rfl⟩
    simp only [hlisted, hm, and_true, if_true, ite_not]
  · simp [hm, e.block_of_not_match zone]

/-- **An exceptional date that cannot be enumerated makes the count fail.** -/
theorem rangeStats_error (ha : Supported after) (ht : Supported through) {d : Int}
    (h1 : zone.localDay after ≤ d) (h2 : d ≤ zone.localDay through)
    (hreg : ¬ Regular zone after through d) (hsup : ¬ e.DaySupported zone d) :
    e.rangeStats after through zone = .error (cronError outOfRangeText) := by
  obtain ⟨dates, hok, hmem⟩ := exceptional_spec zone ha ht
  have hdmin := (zone.dateAt after ha).min_le
  have hdmax := (zone.dateAt through ht).le_max
  have hd1 : (zone.dateAt after ha).day ≤ d := h1
  have hd2 : d ≤ (zone.dateAt through ht).day := h2
  have hlisted := (hmem ⟨d, hdmin.trans hd1, hd2.trans hdmax⟩ h1 h2).mpr hreg
  unfold rangeStats rangeCount dateOf
  simp only [ha, ht, dif_pos, bind, Except.bind, hok]
  rw [e.correctCount_error zone dates.toList _ hlisted h1 h2 hsup]

theorem rangeStats_unsupported (h : ¬ (Supported after ∧ Supported through)) :
    e.rangeStats after through zone = .error (cronError outOfRangeText) := by
  unfold rangeStats rangeCount dateOf
  by_cases ha : Supported after
  · have ht : ¬ Supported through := fun ht => h ⟨ha, ht⟩
    simp only [ha, ht, dif_pos, dif_neg, not_false_eq_true, bind, Except.bind]
  · simp only [ha, dif_neg, not_false_eq_true, bind, Except.bind]

/-- A range that is counted has supported ends, and its exceptional dates can be enumerated. -/
theorem supported_of_rangeStats {stats : OccurrenceStats}
    (h : e.rangeStats after through zone = .ok stats) :
    (Supported after ∧ Supported through) ∧ ∀ d, zone.localDay after ≤ d →
      d ≤ zone.localDay through → ¬ Regular zone after through d → e.DaySupported zone d := by
  have hends : Supported after ∧ Supported through := by
    by_contra hcon
    rw [e.rangeStats_unsupported zone hcon] at h
    cases h
  refine ⟨hends, fun d h1 h2 hreg => ?_⟩
  by_contra hcon
  rw [e.rangeStats_error zone hends.1 hends.2 h1 h2 hreg hcon] at h
  cases h

/-- **`rangeStats` returns the count with the front and the back of what is seen**, and fails where
a time is counted but none is seen. -/
theorem rangeStats_eq (ha : Supported after) (ht : Supported through)
    (hsup : e.DatesSupported zone after through) :
    e.rangeStats after through zone
      = if e.counted zone after through = 0 then .ok OccurrenceStats.default
        else if e.seen zone after through = [] then
          .error (cronError "counted range has no first occurrence")
        else .ok ⟨e.counted zone after through, (e.seen zone after through).head?,
          (e.seen zone after through).getLast?⟩ := by
  have hcount := e.rangeCount_eq zone ha ht (fun d h1 h2 _ => hsup d h1 h2)
  have hfirst := e.firstBetween_eq zone ha ht hsup
  have hlast := e.newestBetween_eq zone ha ht (show 0 < 1 by omega) hsup
  unfold rangeStats
  rw [hcount, hfirst, hlast]
  simp only [bind, Except.bind, Increasing.head?_rtake_one]
  cases hl : (e.seen zone after through).getLast? with
  | none =>
    rw [List.getLast?_eq_none_iff.mp hl]
    rfl
  | some last =>
    cases hs : e.seen zone after through with
    | nil =>
      rw [hs] at hl
      cases hl
    | cons x xs => simp

end CronExpression

end Locron
