import Locron.Schedule.CronCount

set_option autoImplicit false

/-! # Counting against enumeration

The closed form counts all times of a regular date. It counts what the walks see exactly where no
such time was shown before the range (`counted_eq_iff`), and inside a window in which occurrences
and local dates are in the same order (`CountsInOrder`) what is seen of a part is that part of the
whole. In a zone whose local date never decreases, the closed-form count, the first and the last
occurrence and the newest occurrences agree with brute force, unless a time of one of the two
boundary dates lies outside the supported instants.
-/

namespace Locron

/-! ## Intermediate wall clocks -/

namespace Zone

variable (z : Zone)

/-- A wall clock between those of two instants is shown in between, if no jump passes it. -/
theorem exists_localTime_eq {a b w : Int} (hab : a ≤ b) (ha : z.localTime a < w)
    (hb : w < z.localTime b)
    (hjump : ∀ tr ∈ z.transitions, a < tr.timestamp → tr.timestamp ≤ b →
      z.localTime (tr.timestamp - 1) < w → z.localTime tr.timestamp ≤ w) :
    ∃ x, a < x ∧ x ≤ b ∧ z.localTime x = w := by
  induction b, hab using Int.leInduction with
  | base => omega
  | succ b hab ih =>
    have hjump' : ∀ tr ∈ z.transitions, a < tr.timestamp → tr.timestamp ≤ b →
        z.localTime (tr.timestamp - 1) < w → z.localTime tr.timestamp ≤ w :=
      fun tr htr h1 h2 => hjump tr htr h1 (by omega)
    rcases lt_trichotomy (z.localTime b) w with hlt | heq | hgt
    · -- the clock passes `w` between `b` and `b + 1`, so it jumps there
      have hjumps : ¬ ∀ tr ∈ z.transitions, tr.timestamp ≠ b + 1 := by
        intro hno
        have := z.localTime_succ hno
        omega
      push Not at hjumps
      obtain ⟨tr, htr, hts⟩ := hjumps
      have := hjump tr htr (by omega) (by omega) (by rw [hts, Int.add_sub_cancel]; exact hlt)
      rw [hts] at this
      omega
    · have hab' : a < b := by
        rcases lt_or_eq_of_le hab with h | h
        · exact h
        · rw [← h] at heq; omega
      exact ⟨b, hab', by omega, heq⟩
    · obtain ⟨x, h1, h2, h3⟩ := ih hgt hjump'
      exact ⟨x, h1, by omega, h3⟩

theorem localTime_lt_of_localDay_lt {t : Int} {d : Int} {w : Int}
    (hw : epochDay + w / dayMicros = d) (h : z.localDay t < d) : z.localTime t < w := by
  unfold localDay at h
  unfold dayMicros at hw h
  omega

theorem lt_localTime_of_lt_localDay {t : Int} {d : Int} {w : Int}
    (hw : epochDay + w / dayMicros = d) (h : d < z.localDay t) : w < z.localTime t := by
  unfold localDay at h
  unfold dayMicros at hw h
  omega

theorem localDay_le_of_localTime_le {s : Int} {w d : Int} (hw : epochDay + w / dayMicros = d)
    (h : z.localTime s ≤ w) : z.localDay s ≤ d := by
  unfold localDay
  unfold dayMicros at hw ⊢
  omega

theorem le_localDay_of_le_localTime {s : Int} {w d : Int} (hw : epochDay + w / dayMicros = d)
    (h : w ≤ z.localTime s) : d ≤ z.localDay s := by
  unfold localDay
  unfold dayMicros at hw ⊢
  omega

end Zone

namespace CronExpression

variable (e : CronExpression) (zone : Zone) {after through : Int}

/-- The occurrences in `(after, through]`, by enumerating the local dates from `first` to `last`
and on each of them every time: the earlier instant of a repeated time, none for a skipped one. -/
def bruteForce (first last after through : Int) : List Int :=
  (OrdSet.ofList ((Blocks.enum (e.dayOccurrences zone) first (last + 1)).filter
    (fun t => after < t ∧ t ≤ through))).toList

theorem sortedLT_bruteForce (first last after through : Int) :
    (e.bruteForce zone first last after through).SortedLT := OrdSet.sorted _

theorem mem_bruteForce {a b : Int} (first last t : Int) :
    t ∈ e.bruteForce zone first last a b ↔
      a < t ∧ t ≤ b ∧ e.Occurs zone t ∧ first ≤ zone.localDay t ∧ zone.localDay t ≤ last := by
  unfold bruteForce
  rw [← OrdSet.mem_def, OrdSet.mem_ofList, List.mem_filter, Blocks.mem_enum, decide_eq_true_eq]
  constructor
  · rintro ⟨⟨day, h1, h2, hmem⟩, h3, h4⟩
    have hday := e.localDay_of_mem zone hmem
    exact ⟨h3, h4, ⟨day, hmem⟩, by omega, by omega⟩
  · rintro ⟨h1, h2, hocc, h3, h4⟩
    exact ⟨⟨_, h3, by omega, (e.occurs_iff zone).mp hocc⟩, h1, h2⟩

theorem nodup_slots : e.slots.Nodup :=
  e.hour.allowed.sorted.nodup.product e.minute.allowed.sorted.nodup

/-- Two times of one day never resolve to one instant. -/
theorem nodup_resolvedSlots (d : Int) : (resolvedSlots zone d e.slots).Nodup := by
  unfold resolvedSlots List.Nodup
  rw [List.pairwise_filterMap]
  apply e.nodup_slots.imp_of_mem
  rintro ⟨hour, minute⟩ ⟨hour', minute'⟩ hslot hslot' hne t ht t' ht' rfl
  obtain ⟨hh, hm⟩ := e.mem_slots.mp hslot
  obtain ⟨hh', hm'⟩ := e.mem_slots.mp hslot'
  have hwall := zone.resolve_injective ht ht'
  obtain ⟨-, rfl, rfl⟩ := wallClock_injective (e.hour_lt hour hh) (e.minute_lt minute hm)
    (e.hour_lt hour' hh') (e.minute_lt minute' hm') hwall
  exact hne rfl

/-- A matching day all of whose times exist has as many occurrences as times. -/
theorem length_dayOccurrences {d : Int} (hm : e.dateMatches d = true)
    (hres : ∀ slot ∈ e.slots, ∃ t, zone.resolve (wallClock d slot.1 slot.2) = some t) :
    (e.dayOccurrences zone d).length = e.slots.length := by
  have hlen : (resolvedSlots zone d e.slots).length = e.slots.length := by
    unfold resolvedSlots
    rw [List.length_filterMap_eq_countP, List.countP_eq_length]
    intro slot hslot
    obtain ⟨t, ht⟩ := hres slot hslot
    rw [ht]
    rfl
  unfold dayOccurrences
  rw [if_pos hm, ← hlen]
  exact OrdSet.size_ofList (e.nodup_resolvedSlots zone d)

variable {zone}

/-- A regular date misses no time: its wall clocks are all shown between the two instants. -/
theorem shown_of_regular (hle : after ≤ through) {d : Int} (hreg : Regular zone after through d) :
    ∀ slot ∈ e.slots, ∃ x, after < x ∧ x ≤ through ∧
      zone.localTime x = wallClock d slot.1 slot.2 := by
  obtain ⟨hlo, hhi, htouch⟩ := hreg
  rintro ⟨hour, minute⟩ hslot
  obtain ⟨hh, hmin⟩ := e.mem_slots.mp hslot
  have hday := wallClock_day d (e.hour_lt hour hh) (e.minute_lt minute hmin)
  apply zone.exists_localTime_eq hle (zone.localTime_lt_of_localDay_lt hday hlo)
    (zone.lt_localTime_of_lt_localDay hday hhi)
  intro tr htr h1 h2 hbefore
  by_contra hcon
  push Not at hcon
  rcases htouch tr htr h1 h2 (lt_trans hbefore hcon) with h | h
  · have := zone.localDay_le_of_localTime_le hday hbefore.le
    omega
  · have := zone.le_localDay_of_le_localTime hday hcon.le
    omega

/-! ## What is counted, and what is seen -/

/-- A time is counted that was shown before the range: a regular date of the range was already shown
when it began. -/
def Overcounts (zone : Zone) (after through : Int) : Prop :=
  ∃ t, e.Occurs zone t ∧ t ≤ after ∧ Regular zone after through (zone.localDay t)

/-- All times of a regular date have been shown by the end of the range. -/
theorem occurrences_of_regular (hle : after ≤ through) {d : Int} (hm : e.dateMatches d = true)
    (hreg : Regular zone after through d) :
    (e.dayOccurrences zone d).length = e.slots.length ∧
      ∀ t ∈ e.dayOccurrences zone d, t ≤ through := by
  have hshown := e.shown_of_regular hle hreg
  constructor
  · apply e.length_dayOccurrences zone hm
    intro slot hslot
    obtain ⟨x, -, -, hx⟩ := hshown slot hslot
    cases hr : zone.resolve (wallClock d slot.1 slot.2) with
    | some t => exact ⟨t, rfl⟩
    | none => exact absurd hx (zone.resolve_eq_none_iff.mp hr x)
  · intro t ht
    obtain ⟨-, hour, hh, minute, hmin, hr⟩ := (e.mem_dayOccurrences zone).mp ht
    obtain ⟨x, -, hx, hshows⟩ := hshown (hour, minute) (e.mem_slots.mpr ⟨hh, hmin⟩)
    exact ((zone.resolve_eq_some_iff.mp hr).2 x hshows).trans hx

theorem length_block_le (hle : after ≤ through) (d : Int) :
    (e.block zone after through d).length ≤ e.countedOn zone after through d := by
  unfold countedOn
  split
  · next h =>
    rw [← (e.occurrences_of_regular hle h.2 h.1).1]
    exact List.length_filter_le _ _
  · exact le_refl _

theorem length_seen_le (hle : after ≤ through) :
    (e.seen zone after through).length ≤ e.counted zone after through := by
  unfold seen counted
  rw [Blocks.length_enum]
  exact Finset.sum_le_sum fun d _ => e.length_block_le hle d

/-- **The count is right exactly where no time of a regular date was shown before the range.** -/
theorem counted_eq_iff (hle : after ≤ through) :
    e.counted zone after through = (e.seen zone after through).length ↔
      ¬ e.Overcounts zone after through := by
  unfold seen counted
  rw [Blocks.length_enum]
  constructor
  -- the date of such a time counts for more than is seen of it
  · rintro heq ⟨t, hocc, hbefore, hreg⟩
    have hday := (e.occurs_iff zone).mp hocc
    have hm := ((e.mem_dayOccurrences zone).mp hday).1
    refine absurd heq (ne_of_gt (Finset.sum_lt_sum (fun d _ => e.length_block_le hle d)
      ⟨zone.localDay t, Finset.mem_Ico.mpr ⟨hreg.1.le, by have := hreg.2.1; omega⟩, ?_⟩))
    unfold countedOn
    rw [if_pos ⟨hreg, hm⟩, ← (e.occurrences_of_regular hle hm hreg).1]
    refine List.length_filter_lt_length_iff_exists.mpr ⟨t, hday, ?_⟩
    simp only [decide_eq_true_eq]
    omega
  -- date by date: a date that is counted as a whole is also seen as a whole
  · intro hfresh
    refine Finset.sum_congr rfl fun d _ => ?_
    unfold countedOn
    split
    · next h =>
      obtain ⟨hlen, hshown⟩ := e.occurrences_of_regular hle h.2 h.1
      rw [← hlen]
      unfold block
      rw [List.filter_eq_self.mpr]
      intro t ht
      have hd := e.localDay_of_mem zone ht
      have hafter : ¬ t ≤ after := fun hbefore => hfresh ⟨t, ⟨d, ht⟩, hbefore, hd ▸ h.1⟩
      simp only [decide_eq_true_eq]
      exact ⟨by omega, hshown t ht⟩
    · rfl

/-- Counting fails exactly if something is counted and nothing is seen. -/
theorem rangeStats_ok_iff (ha : Supported after) (ht : Supported through) (hle : after ≤ through)
    (hsup : e.DatesSupported zone after through) {stats : OccurrenceStats} :
    e.rangeStats after through zone = .ok stats ↔
      (e.Overcounts zone after through → e.seen zone after through ≠ []) ∧
      stats = ⟨e.counted zone after through, (e.seen zone after through).head?,
        (e.seen zone after through).getLast?⟩ := by
  have hlen : (e.seen zone after through).length ≤ e.counted zone after through :=
    e.length_seen_le hle
  have hcount : e.counted zone after through = (e.seen zone after through).length ↔ _ :=
    e.counted_eq_iff hle
  rw [e.rangeStats_eq zone ha ht hsup]
  by_cases hnil : e.seen zone after through = []
  · rw [hnil, List.length_nil] at hcount
    by_cases hzero : e.counted zone after through = 0
    · have hfresh := hcount.mp hzero
      rw [if_pos hzero, hzero, hnil]
      simp [hfresh, OccurrenceStats.default, eq_comm]
    · have hover := not_not.mp fun h => hzero (hcount.mpr h)
      rw [if_neg hzero, if_pos hnil]
      simp [hover, hnil]
  · have hpos := List.length_pos_of_ne_nil hnil
    rw [if_neg (by omega), if_neg hnil]
    simp [hnil, eq_comm]

/-- Where the count is right, the statistics are those of what is seen. -/
theorem rangeStats_ofList (ha : Supported after) (ht : Supported through) (hle : after ≤ through)
    (hsup : e.DatesSupported zone after through) (hfresh : ¬ e.Overcounts zone after through) :
    e.rangeStats after through zone = .ok (OccurrenceStats.ofList (e.seen zone after through)) := by
  refine (e.rangeStats_ok_iff ha ht hle hsup).mpr ⟨fun h => absurd h hfresh, ?_⟩
  rw [(e.counted_eq_iff hle).mpr hfresh]
  rfl

/-! ## Windows in which counting is additive -/

/-- In every range inside the window, all dates can be enumerated. -/
def WindowSupported (zone : Zone) (lo hi : Int) : Prop :=
  ∀ x y, lo ≤ x → x < y → y ≤ hi → Supported x ∧ Supported y ∧ e.DatesSupported zone x y

/-- If every range inside the window is counted, all its dates can be enumerated: a regular date is
shown inside the range, and is an end of the range up to there. -/
theorem windowSupported_of_rangeStats {lo hi : Int}
    (h : ∀ x y, lo ≤ x → x < y → y ≤ hi → ∃ stats, e.rangeStats x y zone = .ok stats) :
    e.WindowSupported zone lo hi := by
  intro x y hlo hxy hhi
  obtain ⟨stats, hstats⟩ := h x y hlo hxy hhi
  obtain ⟨⟨hx, hy⟩, hsup⟩ := e.supported_of_rangeStats zone hstats
  refine ⟨hx, hy, fun d h1 h2 => ?_⟩
  by_cases hreg : Regular zone x y d
  swap
  · exact hsup d h1 h2 hreg
  intro hm t ht
  obtain ⟨⟨hour, minute⟩, hslot, -⟩ := List.mem_filterMap.mp ht
  obtain ⟨hh, hmin⟩ := e.mem_slots.mp hslot
  obtain ⟨b, hxb, hby, hshows⟩ := e.shown_of_regular hxy.le hreg _ hslot
  have hday : zone.localDay b = d := by
    unfold Zone.localDay
    rw [hshows]
    exact wallClock_day d (e.hour_lt hour hh) (e.minute_lt minute hmin)
  obtain ⟨stats', hstats'⟩ := h x b hlo hxb (by omega)
  exact (e.supported_of_rangeStats zone hstats').2 d h1 hday.ge
    (fun hreg' => absurd hreg'.2.1 (by omega)) hm t ht

/-- An occurrence of the window either shows an earlier date than every instant of the window before
it, so that no range sees it, or is in order with all instants of the window. -/
def InOrder (zone : Zone) (lo hi : Int) : Prop :=
  ∀ t, e.Occurs zone t → lo < t → t ≤ hi →
    (∃ x, lo ≤ x ∧ x < t ∧ zone.localDay x ≤ zone.localDay t) → ∀ x, lo ≤ x → x ≤ hi →
      (x < t → zone.localDay x ≤ zone.localDay t) ∧ (t ≤ x → zone.localDay t ≤ zone.localDay x)

/-- The occurrences that are seen are in order, and no time is counted again on a date that is shown
twice. -/
structure CountsInOrder (zone : Zone) (lo hi : Int) : Prop where
  supported : e.WindowSupported zone lo hi
  inOrder : e.InOrder zone lo hi
  fresh : ∀ x y, lo ≤ x → x < y → y ≤ hi → ¬ e.Overcounts zone x y

namespace InOrder

variable {e} {lo hi : Int} (h : e.InOrder zone lo hi)

include h

theorem sortedLT_seen {x y : Int} (hlo : lo ≤ x) (hhi : y ≤ hi) : (e.seen zone x y).SortedLT := by
  apply Blocks.sortedLT_enum
  · exact e.sortedLT_block zone
  · intro d d' h1 hlt _ s hs t ht
    obtain ⟨hs, hs1, hs2⟩ := (e.mem_block zone).mp hs
    obtain ⟨ht, ht1, ht2⟩ := (e.mem_block zone).mp ht
    have hsd := e.localDay_of_mem zone hs
    have htd := e.localDay_of_mem zone ht
    by_contra hcon
    have := (h t ⟨d', ht⟩ (by omega) (by omega) ⟨x, hlo, ht1, by omega⟩ s (by omega)
      (by omega)).2 (not_lt.mp hcon)
    omega

/-- **What is seen of a part of the window is that part of what is seen of the window.** -/
theorem seen_eq_window {x y : Int} (hlo : lo ≤ x) (hxy : x ≤ y) (hhi : y ≤ hi) :
    e.seen zone x y = Increasing.window (e.seen zone lo hi) x y := by
  apply (h.sortedLT_seen hlo hhi).eq_of_mem_iff
    (Increasing.sortedLT_window (h.sortedLT_seen le_rfl le_rfl) x y)
  intro t
  rw [Increasing.mem_window, e.mem_seen, e.mem_seen]
  constructor
  · rintro ⟨hocc, ⟨h1, h2⟩, hdate, -⟩
    have hord := h t hocc (by omega) (by omega) ⟨x, hlo, h1, hdate⟩
    exact ⟨⟨hocc, ⟨by omega, by omega⟩, (hord lo le_rfl (by omega)).1 (by omega),
      (hord hi (by omega) le_rfl).2 (by omega)⟩, h1, h2⟩
  · rintro ⟨⟨hocc, ⟨h3, h4⟩, hdate, -⟩, h1, h2⟩
    have hord := h t hocc h3 h4 ⟨lo, le_rfl, h3, hdate⟩
    exact ⟨hocc, ⟨h1, h2⟩, (hord x hlo (by omega)).1 h1, (hord y (by omega) hhi).2 h2⟩

end InOrder

section Monotone

variable (hmono : zone.DateMonotone)

include hmono

theorem not_overcounts (x y : Int) : ¬ e.Overcounts zone x y := by
  rintro ⟨t, -, hle, hreg⟩
  exact absurd (hmono t x hle) (not_le.mpr hreg.1)

/-- Between two dates that can be enumerated all dates can be. -/
theorem datesSupported_of_ends (ha : Supported after) (ht : Supported through)
    (hlower : e.DaySupported zone (zone.localDay after))
    (hupper : e.DaySupported zone (zone.localDay through)) :
    e.DatesSupported zone after through := by
  intro d hlo hhi
  rcases eq_or_lt_of_le hlo with rfl | hlt
  · exact hlower
  rcases eq_or_lt_of_le hhi with rfl | hgt
  · exact hupper
  intro hm t hmem
  have hday : t ∈ e.dayOccurrences zone d := by
    unfold dayOccurrences
    rw [if_pos hm, ← OrdSet.mem_def, OrdSet.mem_ofList]
    exact hmem
  have hd := e.localDay_of_mem zone hday
  refine ha.mono ht ?_ ?_
  · by_contra hcon
    have := hmono t after (by omega)
    omega
  · by_contra hcon
    have := hmono through t (by omega)
    omega

/-- In a zone whose local date never decreases the ends of the window decide. -/
theorem countsInOrder_of_monotone (ha : Supported after) (ht : Supported through)
    (hlower : e.DaySupported zone (zone.localDay after))
    (hupper : e.DaySupported zone (zone.localDay through)) :
    e.CountsInOrder zone after through where
  supported := fun x y h1 hxy h2 => ⟨ha.mono ht h1 (by omega), ha.mono ht (by omega) h2,
    fun d hlo hhi => e.datesSupported_of_ends hmono ha ht hlower hupper d
      ((hmono after x h1).trans hlo) (hhi.trans (hmono y through h2))⟩
  inOrder := fun t _ _ _ _ x _ _ => ⟨fun h => hmono x t h.le, fun h => hmono t x h⟩
  fresh := fun x y _ _ _ => e.not_overcounts hmono x y

theorem mem_seen_of_monotone {t : Int} : t ∈ e.seen zone after through ↔
    after < t ∧ t ≤ through ∧ e.Occurs zone t := by
  rw [e.mem_seen]
  constructor
  · rintro ⟨hocc, ⟨h1, h2⟩, -⟩
    exact ⟨h1, h2, hocc⟩
  · rintro ⟨h1, h2, hocc⟩
    exact ⟨hocc, ⟨h1, h2⟩, hmono _ _ h1.le, hmono _ _ h2⟩

/-- **Counting agrees with brute force exactly where both boundary dates can be enumerated.** -/
theorem closedForm_exact_iff (ha : Supported after) (ht : Supported through)
    (hle : after ≤ through) :
    (e.rangeStats after through zone
        = .ok (OccurrenceStats.ofList (e.bruteForce zone dateMin dateMax after through)) ∧
      ∀ limit, 0 < limit → e.newestBetween after through limit zone
        = .ok ((e.bruteForce zone dateMin dateMax after through).rtake limit)) ↔
    e.DaySupported zone (zone.localDay after) ∧ e.DaySupported zone (zone.localDay through) := by
  have hdates := hmono after through hle
  constructor
  · rintro ⟨hstats, -⟩
    obtain ⟨-, hsup⟩ := e.supported_of_rangeStats zone hstats
    exact ⟨hsup _ le_rfl hdates fun h => lt_irrefl _ h.1,
      hsup _ hdates le_rfl fun h => lt_irrefl _ h.2.1⟩
  · rintro ⟨hlower, hupper⟩
    have horder := e.countsInOrder_of_monotone hmono ha ht hlower hupper
    have hseen : e.bruteForce zone dateMin dateMax after through = e.seen zone after through := by
      apply (e.sortedLT_bruteForce zone _ _ after through).eq_of_mem_iff
        (horder.inOrder.sortedLT_seen le_rfl le_rfl)
      intro t
      rw [e.mem_bruteForce zone, e.mem_seen_of_monotone hmono]
      constructor
      · rintro ⟨h1, h2, hocc, -⟩
        exact ⟨h1, h2, hocc⟩
      · rintro ⟨h1, h2, hocc⟩
        have hbounds := zone.localDay_bounds (ha.mono ht h1.le h2)
        exact ⟨h1, h2, hocc, hbounds.1, hbounds.2⟩
    rw [hseen]
    have hsup := e.datesSupported_of_ends hmono ha ht hlower hupper
    exact ⟨e.rangeStats_ofList ha ht hle hsup (e.not_overcounts hmono after through),
      fun limit hlimit => e.newestBetween_eq zone ha ht hlimit hsup⟩

end Monotone

end CronExpression

/-- `0 23 * * *`, parsed: eleven in the evening of every day. -/
theorem parse_elevenPm : ∃ e, CronExpression.parse "0 23 * * *" = .ok e ∧
    e.dateMatches 3652423 = true ∧ e.dateMatches 719528 = true ∧ e.slots = [(23, 0)] :=
  CronExpression.exists_parse (fun f => f.dateMatches 719528 = true ∧ f.slots = [(23, 0)])
    ⟨_, rfl, by decide, by decide, rfl⟩

/-- `9999-12-30T12:00:00Z`. -/
def lastDayNoon : Int := 253402171200000000

/-- **Between noon and one of the last supported day, counting fails**: the run of that evening is
outside the supported instants. -/
theorem closedForm_fails_on_last_day :
    ∃ e, CronExpression.parse "0 23 * * *" = .ok e ∧ Zone.utc.DateMonotone ∧
      Supported lastDayNoon ∧ Supported (lastDayNoon + 3600000000) ∧
      e.rangeStats lastDayNoon (lastDayNoon + 3600000000) Zone.utc
        = .error (cronError outOfRangeText) ∧
      ¬ (e.rangeStats lastDayNoon (lastDayNoon + 3600000000) Zone.utc
          = .ok (OccurrenceStats.ofList (e.bruteForce Zone.utc dateMin dateMax lastDayNoon
              (lastDayNoon + 3600000000))) ∧
        ∀ limit, 0 < limit → e.newestBetween lastDayNoon (lastDayNoon + 3600000000) limit Zone.utc
          = .ok ((e.bruteForce Zone.utc dateMin dateMax lastDayNoon
              (lastDayNoon + 3600000000)).rtake limit)) := by
  obtain ⟨e, hparse, hday, -, hslots⟩ := parse_elevenPm
  have hlocal : Zone.utc.localDay lastDayNoon = 3652423 := by decide
  have hlocal' : Zone.utc.localDay (lastDayNoon + 3600000000) = 3652423 := by decide
  have hnot : ¬ e.DaySupported Zone.utc 3652423 := by
    intro hsupported
    have hslot := hsupported hday
    rw [hslots] at hslot
    exact absurd hslot (by decide)
  have herror : e.rangeStats lastDayNoon (lastDayNoon + 3600000000) Zone.utc
      = .error (cronError outOfRangeText) :=
    e.rangeStats_error Zone.utc (by decide) (by decide) hlocal.le hlocal'.ge
      (fun h => absurd h.1 (by rw [hlocal]; exact lt_irrefl _)) hnot
  refine ⟨e, hparse, Zone.utc_dateMonotone, by decide, by decide, herror, ?_⟩
  rintro ⟨hstats, -⟩
  rw [herror] at hstats
  cases hstats

/-- On `1970-01-01` both boundary dates are fine, and the run of that evening is counted. -/
theorem closedForm_exact_epoch :
    ∃ e, CronExpression.parse "0 23 * * *" = .ok e ∧
      82800000000 ∈ e.bruteForce Zone.utc dateMin dateMax 0 86400000000 ∧
      e.rangeStats 0 86400000000 Zone.utc
        = .ok (OccurrenceStats.ofList (e.bruteForce Zone.utc dateMin dateMax 0 86400000000)) := by
  obtain ⟨e, hparse, -, hday, hslots⟩ := parse_elevenPm
  have hevening : e.dayOccurrences Zone.utc 719528 = [82800000000] := by
    unfold CronExpression.dayOccurrences
    rw [if_pos hday, hslots]
    rfl
  have hsup : ∀ d, 719528 ≤ d → d ≤ 719529 → e.DaySupported Zone.utc d := by
    intro d h1 h2 _
    rw [hslots]
    obtain rfl | rfl : d = 719528 ∨ d = 719529 := by omega
    · decide
    · decide
  have hdays : Zone.utc.localDay 0 = 719528 ∧ Zone.utc.localDay 86400000000 = 719529 := by decide
  refine ⟨e, hparse, ?_, ?_⟩
  · rw [e.mem_bruteForce]
    exact ⟨by decide, by decide, ⟨719528, by rw [hevening]; decide⟩, by decide, by decide⟩
  · exact ((e.closedForm_exact_iff Zone.utc_dateMonotone (by decide) (by decide) (by decide)).mpr
      ⟨by rw [hdays.1]; exact hsup _ (by decide) (by decide),
        by rw [hdays.2]; exact hsup _ (by decide) (by decide)⟩).1

end Locron
