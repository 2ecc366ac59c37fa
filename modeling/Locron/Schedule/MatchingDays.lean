import Locron.Lib.Cycle
import Locron.Schedule.Cron

set_option autoImplicit false

/-! # The cycle of matching days is exact

The Gregorian calendar repeats after 146097 days, so a bit set over one cycle decides every date.
The results say what the rank and select of the bit set mean for dates:

* `matchingDaysInclusive_eq`: the number of matching dates in an interval of dates;
* `matchingDateAtOrBefore_spec`, `matchingDateAtOrAfter_spec`: the nearest matching date.
-/

namespace Locron

namespace CronFields

variable (f : CronFields)

/-- **Matching has the period of the calendar.** -/
theorem dateMatches_periodic : Function.Periodic f.dateMatches ((146097 : Nat) : Int) := by
  intro day
  have hshift : day + ((146097 : Nat) : Int) = day + Calendar.cycleDays * 1 := rfl
  simp only [dateMatches, hshift, Calendar.ofDay_month_add_cycle, Calendar.ofDay_day_add_cycle,
    Calendar.weekday_add_cycle]

end CronFields

namespace MatchingDayCycle

/-- The cycle holds the set `P` of days. -/
structure Holds (cycle : MatchingDayCycle) (P : Int → Bool) : Prop where
  count_eq : cycle.count = Cycle.below P 146097
  rank_eq : ∀ n : Nat, n ≤ 146097 → cycle.rankBefore n = Cycle.below P n
  select_spec : ∀ k < cycle.count, ∃ o : Nat, cycle.select k = some (o : Int) ∧ o < 146097 ∧
    P o = true ∧ Cycle.below P o = k

end MatchingDayCycle

section Words

variable {P : Int → Bool} {words : List Nat} (hlen : words.length = 2283)
  (hbit : ∀ i : Nat, BitRank.bit 64 words i = (decide (i < 146097) && P i))

include hbit in
/-- Up to the end of the cycle, the bits count the days. -/
theorem count_words {n : Nat} (hn : n ≤ 146097) :
    Nat.count (fun i => BitRank.bit 64 words i = true) n = Cycle.below P n := by
  unfold Cycle.below
  rw [Nat.count_eq_card_filter_range, Nat.count_eq_card_filter_range]
  congr 1
  apply Finset.filter_congr
  intro i hi
  have : i < 146097 := lt_of_lt_of_le (Finset.mem_range.mp hi) hn
  simp [hbit, this]

include hlen hbit in
/-- Behind the cycle's last day no bit is set. -/
theorem count_words_total :
    Nat.count (fun i => BitRank.bit 64 words i = true) (64 * words.length)
      = Cycle.below P 146097 := by
  have hsplit : 64 * words.length = 146097 + 15 := by omega
  rw [hsplit, Nat.count_add, count_words hbit (le_refl _)]
  have hzero : Nat.count (fun i => BitRank.bit 64 words (146097 + i) = true) 15 = 0 := by
    rw [Nat.count_iff_forall_not]
    intro i _
    simp [hbit]
  rw [hzero, Nat.add_zero]

include hlen hbit in
theorem count_fromWords : (MatchingDayCycle.fromWords words).count = Cycle.below P 146097 := by
  have hplen := BitRank.length_prefixes (w := 64) words
  have hlast : (BitRank.prefixes 64 words).getLastD 0
      = (BitRank.prefixes 64 words).getD words.length 0 := by
    rw [List.getLastD_eq_getLast?, List.getLast?_eq_getElem?, hplen, List.getD_eq_getElem?_getD,
      Nat.add_sub_cancel]
  unfold MatchingDayCycle.fromWords
  rw [hlast, BitRank.getD_prefixes _ (le_refl _), count_words_total hlen hbit]

include hlen hbit in
/-- **The cycle of words with the bits of `P` holds `P`.** -/
theorem fromWords_holds : (MatchingDayCycle.fromWords words).Holds P where
  count_eq := count_fromWords hlen hbit
  rank_eq := by
    intro n hn
    unfold MatchingDayCycle.rankBefore gregorianCycleDays
    by_cases h0 : n = 0
    · subst h0
      simp [Cycle.below]
    rw [if_neg (by omega)]
    by_cases hend : n = 146097
    · rw [if_pos (by omega), count_fromWords hlen hbit, hend]
    rw [if_neg (by omega), Int.toNat_natCast]
    have hword : n / 64 ≤ words.length := by omega
    unfold MatchingDayCycle.fromWords
    rw [BitRank.rank_eq_count (by omega) _ hword, count_words hbit hn]
  select_spec := by
    intro k hk
    have hk' : k < Nat.count (fun i => BitRank.bit 64 words i = true) (64 * words.length) := by
      rw [count_words_total hlen hbit, ← count_fromWords hlen hbit]
      exact hk
    have hmem := BitRank.bit_select words hk'
    have hcount := BitRank.count_select words hk'
    rw [hbit, Bool.and_eq_true, decide_eq_true_eq] at hmem
    refine ⟨_, if_neg (by omega), hmem.1, hmem.2, ?_⟩
    exact (count_words hbit hmem.1.le).symm.trans hcount

end Words

/-- **The cycle of an expression holds its matching days.** -/
theorem CronFields.buildMatchingDayOffsets_holds (f : CronFields) :
    f.buildMatchingDayOffsets.Holds f.dateMatches := by
  unfold CronFields.buildMatchingDayOffsets
  have hdays : gregorianCycleDays.toNat = 146097 := rfl
  have hwords : gregorianCycleWords = 2283 := rfl
  rw [hdays, hwords]
  have hbuild := BitRank.length_build (w := 64) (List.replicate 2283 0)
    (fun i : Nat => f.dateMatches i) 146097
  apply fromWords_holds
  · exact hbuild.trans List.length_replicate
  intro i
  have hbit := BitRank.bit_build (List.replicate 2283 0) (fun i : Nat => f.dateMatches i) 146097
    (by omega : 0 < 64) (by rw [List.length_replicate]; omega) i
  rw [BitRank.bit_replicate_zero, Bool.false_or] at hbit
  exact hbit

/-! ## Positions -/

section Positions

variable {P : Int → Bool} {cycle : MatchingDayCycle} (hc : cycle.Holds P)
  (hper : Function.Periodic P ((146097 : Nat) : Int))

include hc in
theorem matchingPositionsBefore_eq (day : Int) :
    matchingPositionsBefore day cycle = Cycle.position P 146097 day := by
  have hlt : (day % 146097).toNat ≤ 146097 := by omega
  have hrank := hc.rank_eq _ hlt
  rw [Int.toNat_of_nonneg (by omega)] at hrank
  unfold matchingPositionsBefore Cycle.position gregorianCycleDays
  rw [hc.count_eq, hrank]
  rfl

def dayOfPosition (position : Int × Int) : Int := position.1 * gregorianCycleDays + position.2

include hc hper in
/-- A cycle with a member is not empty. -/
theorem count_ne_zero_of_mem {day : Int} (h : P day = true) : cycle.count ≠ 0 := by
  rw [hc.count_eq]
  obtain ⟨r, hr⟩ := Int.eq_ofNat_of_zero_le (Int.emod_nonneg day (by decide : (146097 : Int) ≠ 0))
  have hP : P (r : Int) = true := by
    rw [← h, ← Cycle.apply_emod hper day]
    exact congrArg P hr.symm
  have := Cycle.below_lt (P := P) hP (by omega : r < 146097)
  omega

/-- The nearest member: the first one not below `day` going forward, the last one not above it
going backward. -/
def Nearest (P : Int → Bool) (forward : Bool) (day t : Int) : Prop :=
  P t = true ∧ if forward then day ≤ t ∧ ∀ x, day ≤ x → x < t → P x = false
    else t ≤ day ∧ ∀ x, t < x → x ≤ day → P x = false

theorem Nearest.unique {forward : Bool} {day t t' : Int} (h : Nearest P forward day t)
    (h' : Nearest P forward day t') : t = t' := by
  rcases forward with _ | _
  · obtain ⟨hP, hle, hgap⟩ := h
    obtain ⟨hP', hle', hgap'⟩ := h'
    rcases lt_trichotomy t t' with hlt | heq | hgt
    · exact absurd hP' (by simp [hgap _ hlt hle'])
    · exact heq
    · exact absurd hP (by simp [hgap' _ hgt hle])
  · obtain ⟨hP, hle, hgap⟩ := h
    obtain ⟨hP', hle', hgap'⟩ := h'
    rcases lt_trichotomy t t' with hlt | heq | hgt
    · exact absurd hP (by simp [hgap' _ hle hlt])
    · exact heq
    · exact absurd hP' (by simp [hgap _ hle' hgt])

include hc in
/-- Where `matchingPosition` stops: a member with the wanted number of members below it. -/
theorem matchingPosition_spec (hne : cycle.count ≠ 0) (day : Int) (forward : Bool) :
    ∃ o : Nat, (matchingPosition day cycle forward).2 = o ∧ o < 146097 ∧ P o = true ∧
      (matchingPosition day cycle forward).1 * cycle.count + Cycle.below P o
        = if forward then Cycle.position P 146097 day
          else Cycle.position P 146097 (day + 1) - 1 := by
  obtain ⟨r, hr⟩ := Int.eq_ofNat_of_zero_le (Int.emod_nonneg day (by decide : (146097 : Int) ≠ 0))
  have hday := Int.mul_ediv_add_emod day 146097
  have hposition (n : Nat) (hn : n ≤ 146097) :=
    Cycle.position_mul_add (P := P) (by decide : 0 < 146097) (day / 146097) hn
  have hrank (n : Nat) (hn : n ≤ 146097) := hc.rank_eq n hn
  have hcount := hc.count_eq
  unfold matchingPosition gregorianCycleDays
  simp only [hr]
  cases forward with
  | true =>
    have hp := hposition r (by omega)
    rw [show day / 146097 * ((146097 : Nat) : Int) + r = day by push_cast; omega] at hp
    simp only [if_true, hrank r (by omega), hp, ← hcount]
    by_cases hlt : Cycle.below P r < cycle.count
    · -- a member is left in this cycle
      obtain ⟨o, hsel, ho, hPo, hbo⟩ := hc.select_spec _ hlt
      rw [hsel]
      exact ⟨o, rfl, ho, hPo, by rw [hbo]⟩
    · -- the rest of this cycle is empty, the next one starts with its first member
      have hsel : cycle.select (Cycle.below P r) = none := if_pos (by omega)
      have hmono := Cycle.below_mono (P := P) (by omega : r ≤ 146097)
      obtain ⟨o, hsel0, ho, hPo, hbo⟩ := hc.select_spec 0 (by omega)
      rw [hsel, hsel0]
      refine ⟨o, rfl, ho, hPo, ?_⟩
      rw [hbo, add_mul, show Cycle.below P r = cycle.count by omega]
      push_cast
      ring
  | false =>
    have hp := hposition (r + 1) (by omega)
    rw [show day / 146097 * ((146097 : Nat) : Int) + (r + 1 : Nat) = day + 1 by
      push_cast; omega] at hp
    have hrank' := hrank (r + 1) (by omega)
    push_cast at hrank'
    simp only [Bool.false_eq_true, if_false, hrank', hp, ← hcount]
    by_cases hpos : 0 < Cycle.below P (r + 1)
    · have hmono := Cycle.below_mono (P := P) (by omega : r + 1 ≤ 146097)
      obtain ⟨o, hsel, ho, hPo, hbo⟩ := hc.select_spec (Cycle.below P (r + 1) - 1) (by omega)
      rw [if_pos hpos, hsel]
      exact ⟨o, rfl, ho, hPo, by rw [hbo]; push_cast [hpos]; ring⟩
    · -- the cycle is empty up to `day`, the one before ends with its last member
      obtain ⟨o, hsel, ho, hPo, hbo⟩ := hc.select_spec (cycle.count - 1) (by omega)
      rw [if_neg hpos, hsel]
      refine ⟨o, rfl, ho, hPo, ?_⟩
      rw [hbo, sub_mul, show Cycle.below P (r + 1) = 0 by omega]
      push_cast [Nat.pos_of_ne_zero hne]
      ring

include hc hper in
/-- **`matchingPosition` stops at the nearest member.** -/
theorem matchingPosition_nearest (hne : cycle.count ≠ 0) (day : Int) (forward : Bool) :
    Nearest P forward day (dayOfPosition (matchingPosition day cycle forward)) := by
  obtain ⟨o, ho, hlt, hPo, hpos⟩ := matchingPosition_spec hc hne day forward
  have hN : 0 < 146097 := by decide
  have hmul := Cycle.position_mul_add (P := P) hN (matchingPosition day cycle forward).1 hlt.le
  have hP := (Cycle.apply_mul_add hper (matchingPosition day cycle forward).1 o).trans hPo
  rw [← hc.count_eq, hpos] at hmul
  unfold dayOfPosition gregorianCycleDays
  rw [ho]
  refine ⟨hP, ?_⟩
  cases forward with
  | true => exact Cycle.first_of_position_eq hN hper hP hmul
  | false =>
    rw [if_neg Bool.false_ne_true] at hmul
    exact Cycle.last_of_position_eq hN hper hP (eq_sub_iff_add_eq.mp hmul)

theorem matchingPosition_cycle (cycle : MatchingDayCycle) (day : Int) (forward : Bool) :
    day / 146097 - 1 ≤ (matchingPosition day cycle forward).1 ∧
      (matchingPosition day cycle forward).1 ≤ day / 146097 + 1 := by
  unfold matchingPosition gregorianCycleDays
  simp only
  split
  · split <;> constructor <;> simp only <;> omega
  · split <;> constructor <;> simp only <;> omega

include hc in
/-- The walk neither overflows nor panics, unless it starts far outside the calendar. -/
theorem matchingDate_eq (hne : cycle.count ≠ 0) {day : Int} (forward : Bool)
    (hlo : -7000000 ≤ day) (hhi : day ≤ 7000000) :
    matchingDate day cycle forward
      = .ok (Date.fromDay (dayOfPosition (matchingPosition day cycle forward))) := by
  have hcycle := matchingPosition_cycle cycle day forward
  obtain ⟨o, ho, hlt, -, -⟩ := matchingPosition_spec hc hne day forward
  unfold matchingDate dayOfPosition
  rw [if_neg hne]
  generalize matchingPosition day cycle forward = position at *
  rcases position with ⟨c, offset⟩
  simp only at ho hcycle ⊢
  have hbase : InI64 (c * gregorianCycleDays) := by
    unfold InI64 i64Min i64Max gregorianCycleDays
    omega
  have hday : InI64 (c * gregorianCycleDays + offset) := by
    unfold InI64 i64Min i64Max gregorianCycleDays
    omega
  rw [checked_eq_some hbase, Option.bind_some, checked_eq_some hday]
  refine if_pos ?_
  unfold spanDaysMax gregorianCycleDays
  omega

include hc hper in
/-- **A date is found if and only if the nearest member is that date.** -/
theorem matchingDate_eq_some (day : Int) (forward : Bool) (date : Date) :
    matchingDate day cycle forward = .ok (some date) ↔ Nearest P forward day date.day := by
  constructor
  · intro h
    unfold matchingDate at h
    split_ifs at h with hne
    · cases h
    have hnear := matchingPosition_nearest hc hper hne day forward
    unfold dayOfPosition at hnear
    generalize matchingPosition day cycle forward = position at h hnear
    rcases position with ⟨c, offset⟩
    dsimp only at h hnear
    split at h
    · cases h
    next target htarget =>
    obtain ⟨base, hbase, hday⟩ := Option.bind_eq_some_iff.mp htarget
    obtain ⟨-, rfl⟩ := checked_eq_some_iff.mp hbase
    obtain ⟨-, rfl⟩ := checked_eq_some_iff.mp hday
    unfold dateFromDay at h
    split_ifs at h
    rw [Date.fromDay_eq_some.mp (Except.ok.inj h)]
    exact hnear
  · intro h
    have hne := count_ne_zero_of_mem hc hper h.1
    have heq := h.unique (matchingPosition_nearest hc hper hne day forward)
    have hcycle := matchingPosition_cycle cycle day forward
    obtain ⟨o, ho, hlt, -, -⟩ := matchingPosition_spec hc hne day forward
    have hmin := date.min_le
    have hmax := date.le_max
    unfold dateMin at hmin
    unfold dateMax at hmax
    -- the nearest member lies within two cycles, so the walk starts near the calendar
    have hshape := heq
    unfold dayOfPosition gregorianCycleDays at hshape
    rw [matchingDate_eq hc hne forward (by omega) (by omega), ← heq, Date.fromDay_day]

end Positions

namespace CronExpression

variable (e : CronExpression)

theorem matchingDays_holds : e.matchingDays.Holds e.dateMatches := by
  rw [e.cycle_eq]
  exact e.buildMatchingDayOffsets_holds

/-- **The rank difference is the number of matching dates.** -/
theorem matchingDaysInclusive_eq (first last : Date) :
    e.matchingDaysInclusive first last
      = ((Int.range first.day (last.day + 1)).filter e.dateMatches).length := by
  unfold matchingDaysInclusive
  by_cases h : last.day < first.day
  · rw [if_pos h, Blocks.range_of_le (by omega)]
    rfl
  rw [if_neg h, matchingPositionsBefore_eq e.matchingDays_holds,
    matchingPositionsBefore_eq e.matchingDays_holds,
    Cycle.position_sub (by omega) e.dateMatches_periodic (by omega)]
  rfl

/-- **The nearest matching date, if the calendar reaches it.** -/
theorem matchingDate_spec (date : Date) (forward : Bool) :
    ∃ t, matchingDate date.day e.matchingDays forward = .ok (Date.fromDay t) ∧
      Nearest e.dateMatches forward date.day t := by
  have hmin := date.min_le
  have hmax := date.le_max
  unfold dateMin at hmin
  unfold dateMax at hmax
  exact ⟨_, matchingDate_eq e.matchingDays_holds e.nonempty forward (by omega) (by omega),
    matchingPosition_nearest e.matchingDays_holds e.dateMatches_periodic e.nonempty date.day
      forward⟩

theorem matchingDateAtOrBefore_spec (date : Date) :
    ∃ t, e.matchingDateAtOrBefore date = .ok (Date.fromDay t) ∧ e.dateMatches t = true ∧
      t ≤ date.day ∧ ∀ x, t < x → x ≤ date.day → e.dateMatches x = false :=
  e.matchingDate_spec date false

theorem matchingDateAtOrAfter_spec (date : Date) :
    ∃ t, e.matchingDateAtOrAfter date = .ok (Date.fromDay t) ∧ e.dateMatches t = true ∧
      date.day ≤ t ∧ ∀ x, date.day ≤ x → x < t → e.dateMatches x = false :=
  e.matchingDate_spec date true

end CronExpression

theorem CronFields.count_ne_zero {f : CronFields} {day : Int} (h : f.dateMatches day = true) :
    f.buildMatchingDayOffsets.count ≠ 0 :=
  count_ne_zero_of_mem f.buildMatchingDayOffsets_holds f.dateMatches_periodic h

theorem CronExpression.exists_parse {source : String} (P : CronFields → Prop) {day : Int}
    (h : ∃ f, parseFields (splitWhitespace source.toList) = .ok f ∧ f.dateMatches day = true ∧ P f)
    (halias : expandAlias source.toList = .ok source.toList := by rfl) :
    ∃ e, CronExpression.parse source = .ok e ∧ e.dateMatches day = true ∧ P e.toCronFields := by
  obtain ⟨f, hfields, hday, hf⟩ := h
  refine ⟨⟨f, f.buildMatchingDayOffsets, rfl, f.count_ne_zero hday⟩, ?_, hday, hf⟩
  unfold CronExpression.parse
  simp only [halias, hfields]
  rw [dif_neg (f.count_ne_zero hday)]

/-! ## Rank and select -/

/-- A bit set over the days of one cycle: the bits behind the last day are not set. -/
structure DayBits where
  words : List Nat
  length_eq : words.length = gregorianCycleWords
  padding : ∀ i, 146097 ≤ i → BitRank.bit 64 words i = false

namespace DayBits

variable (bits : DayBits)

def cycle : MatchingDayCycle := MatchingDayCycle.fromWords bits.words

/-- The set repeats in every cycle. -/
def matching (day : Int) : Bool := BitRank.bit 64 bits.words (day % gregorianCycleDays).toNat

theorem matching_periodic : Function.Periodic bits.matching ((146097 : Nat) : Int) := by
  intro day
  unfold matching gregorianCycleDays
  rw [show ((146097 : Nat) : Int) = 146097 from rfl, Int.add_emod_right]

theorem cycle_holds : bits.cycle.Holds bits.matching := by
  refine fromWords_holds bits.length_eq fun i => ?_
  by_cases hi : i < 146097
  · unfold matching gregorianCycleDays
    rw [Int.emod_eq_of_lt (by omega) (by omega), Int.toNat_natCast]
    simp [hi]
  · rw [bits.padding i (by omega)]
    simp [hi]

/-- **Rank and select are inverse, and the walks stop at the nearest matching day.** A day is
returned if it is a date of the calendar. -/
theorem rank_select_inverse :
    (∀ day forward date, matchingDate day bits.cycle forward = .ok (some date) ↔
      Nearest bits.matching forward day date.day) ∧
    (∀ day forward, dateMin ≤ day → day ≤ dateMax →
      ∃ found, matchingDate day bits.cycle forward = .ok found) ∧
    (∀ rank, (bits.cycle.count ≤ rank ∧ bits.cycle.select rank = none) ∨
      ∃ offset, bits.cycle.select rank = some offset ∧ bits.matching offset = true ∧
        0 ≤ offset ∧ offset < gregorianCycleDays ∧ bits.cycle.rankBefore offset = rank) ∧
    ∀ first last, first ≤ last →
      matchingPositionsBefore last bits.cycle - matchingPositionsBefore first bits.cycle
        = ((Int.range first last).filter bits.matching).length := by
  refine ⟨matchingDate_eq_some bits.cycle_holds bits.matching_periodic, ?_, ?_, ?_⟩
  · intro day forward hmin hmax
    unfold dateMin at hmin
    unfold dateMax at hmax
    by_cases hne : bits.cycle.count = 0
    · exact ⟨none, if_pos hne⟩
    · exact ⟨_, matchingDate_eq bits.cycle_holds hne forward (by omega) (by omega)⟩
  · intro rank
    by_cases hrank : rank < bits.cycle.count
    · obtain ⟨o, hsel, ho, hP, hbelow⟩ := bits.cycle_holds.select_spec rank hrank
      exact .inr ⟨o, hsel, hP, by omega, by unfold gregorianCycleDays; omega,
        (bits.cycle_holds.rank_eq o ho.le).trans hbelow⟩
    · exact .inl ⟨by omega, if_pos (by omega)⟩
  · intro first last h
    rw [matchingPositionsBefore_eq bits.cycle_holds, matchingPositionsBefore_eq bits.cycle_holds]
    exact Cycle.position_sub (by omega) bits.matching_periodic h

def firstDays : DayBits where
  words := 1 :: List.replicate 2282 0
  length_eq := by rw [List.length_cons, List.length_replicate]; rfl
  padding := by
    intro i hi
    unfold BitRank.bit
    obtain ⟨j, hj⟩ : ∃ j, i / 64 = j + 1 := ⟨i / 64 - 1, by omega⟩
    rw [hj, List.getD_cons_succ, List.getD_eq_getElem?_getD, List.getElem?_replicate]
    split <;> simp

/-- The first matching day after the last date is found by no walk. -/
theorem past_calendar_not_found :
    Nearest firstDays.matching true dateMax 3652425 ∧
      matchingDate dateMax firstDays.cycle true = .ok none := by
  have hnear : Nearest firstDays.matching true dateMax 3652425 := by
    refine ⟨by decide +kernel, by decide, ?_⟩
    intro x hlo hhi
    unfold dateMax at hlo
    obtain rfl : x = 3652424 := by omega
    decide +kernel
  have hne := count_ne_zero_of_mem firstDays.cycle_holds firstDays.matching_periodic hnear.1
  have hfound := matchingPosition_nearest firstDays.cycle_holds firstDays.matching_periodic hne
    dateMax true
  refine ⟨hnear, ?_⟩
  rw [matchingDate_eq firstDays.cycle_holds hne true (by decide) (by decide), hfound.unique hnear]
  rfl

end DayBits

end Locron
