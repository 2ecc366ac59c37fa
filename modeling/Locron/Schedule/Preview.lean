import Locron.Lib.Fallible
import Locron.Schedule.Split

set_option autoImplicit false

/-! # The preview of a schedule

`Schedule.next` lists upcoming instants: it walks forward over dates, or adds the interval to the
first instant after the given one. Reconciliation counts the same occurrences by rank and enumerates
them from the newest on. Both are compared here with the set of the occurrences themselves: what is
listed are its first elements (`FirstOf`), and what is accounted for is its part in the range.
-/

namespace Locron

/-- Validates the schedule and lists the next `count` instants strictly after `after`. -/
def Schedule.next (zones : ZoneTable) (systemZone : Zone) (after : Int) (count : Nat)
    (schedule : Schedule) : Except ValidationError (List Int) :=
  if 1000 < count then .error ⟨"count", "out_of_range", "count must not exceed 1000"⟩
  else
    match schedule with
    | .at at_ => .ok (if after < at_ ∧ 0 < count then [at_] else [])
    | .every interval anchor => intervalOccurrences interval anchor after count
    | .cron expression timezone =>
      match CronExpression.parse expression with
      | .error e => .error e
      | .ok parsed =>
        match timezone.resolveWith zones systemZone with
        | .error e => .error e
        | .ok zone => parsed.nextInZone after count zone

/-! ## The walk over dates -/

namespace CronExpression

variable (e : CronExpression) (zone : Zone) {after : Int}

def upcoming (after : Int) (day : Int) : List Int :=
  (e.dayOccurrences zone day).filter (fun c => after < c)

theorem upcoming_of_not_match {day : Int} (h : e.dateMatches day = false) :
    e.upcoming zone after day = [] := by
  simp [upcoming, dayOccurrences, h]

/-- From the matching day `t` on, the walk collects the days until the list is full, or meets a day
with an unsupported time. It has enough fuel for the rest of the calendar. -/
theorem nextLoop_cases {count : Nat} (fuel : Nat) (t : Int) (result : List Int) (hmin : dateMin ≤ t)
    (hfuel : dateMax - t + 1 < fuel) (hpos : 0 < fuel) (hlen : result.length < count) :
    e.nextLoop after count zone fuel (Date.fromDay t) result
        = .ok ((result ++ Blocks.enum (e.upcoming zone after) t (dateMax + 1)).take count) ∨
      (∃ d, t ≤ d ∧ d ≤ dateMax ∧ ¬ e.DaySupported zone d) ∧
        e.nextLoop after count zone fuel (Date.fromDay t) result
          = .error (cronError outOfRangeText) := by
  induction fuel generalizing t result with
  | zero => omega
  | succ fuel ih =>
    cases hdate : Date.fromDay t with
    | none =>
      -- the calendar has ended
      have hend : dateMax < t := by
        rcases Date.fromDay_eq_none.mp hdate with h | h <;> omega
      left
      rw [Blocks.enum_of_le (by omega), List.append_nil, List.take_of_length_le (by omega)]
      rfl
    | some date =>
      have hday := Date.fromDay_eq_some.mp hdate
      have hmax := date.le_max
      unfold nextLoop
      rw [e.candidatesOnDate_eq, hday]
      by_cases hsup : e.DaySupported zone t
      · rw [if_pos hsup]
        dsimp only
        rw [Blocks.enum_cons (by omega), ← List.append_assoc]
        show (if count ≤ (result ++ e.upcoming zone after t).length then _ else _) = _ ∨
          _ ∧ (if count ≤ (result ++ e.upcoming zone after t).length then _ else _) = _
        by_cases hfull : count ≤ (result ++ e.upcoming zone after t).length
        · left
          rw [if_pos hfull, List.take_append_of_le_length hfull]
          rfl
        rw [if_neg hfull]
        unfold nextDate Date.tomorrow
        rw [hday]
        cases hnext : Date.fromDay (t + 1) with
        | none =>
          left
          have hend : dateMax < t + 1 := by
            rcases Date.fromDay_eq_none.mp hnext with h | h <;> omega
          rw [Blocks.enum_of_le (by omega), List.append_nil,
            List.take_of_length_le (by omega)]
          cases fuel <;> rfl
        | some next =>
          have hnday := Date.fromDay_eq_some.mp hnext
          have hnmax := next.le_max
          obtain ⟨t', ht', -, hle, hgap⟩ := e.matchingDateAtOrAfter_spec next
          simp only [ht']
          have hskip : Blocks.enum (e.upcoming zone after) (t + 1) (dateMax + 1)
              = Blocks.enum (e.upcoming zone after) t' (dateMax + 1) :=
            Blocks.enum_skip_left (by omega) fun d h1 h2 =>
              e.upcoming_of_not_match zone (hgap d (by omega) h2)
          rw [hskip]
          rcases ih t' (result ++ e.upcoming zone after t) (by omega) (by omega) (by omega)
            (by omega) with hok | ⟨⟨d, h1, h2, hd⟩, herr⟩
          · exact Or.inl hok
          · exact Or.inr ⟨⟨d, by omega, h2, hd⟩, herr⟩
      · rw [if_neg hsup]
        exact Or.inr ⟨⟨t, le_rfl, by omega, hsup⟩, rfl⟩

/-- What a successful preview lists. -/
theorem nextInZone_eq_ok {count : Nat} {l : List Int} (hcount : count ≠ 0)
    (h : e.nextInZone after count zone = .ok l) :
    l = (Blocks.enum (e.upcoming zone after) (zone.localDay after) (dateMax + 1)).take count := by
  unfold nextInZone at h
  rw [if_neg hcount] at h
  by_cases hsup : Supported after
  · unfold dateOf at h
    obtain ⟨t, ht, -, hle, hgap⟩ := e.matchingDateAtOrAfter_spec (zone.dateAt after hsup)
    have hlower : (zone.dateAt after hsup).day = zone.localDay after := rfl
    have hmin := (zone.dateAt after hsup).min_le
    simp only [hsup, dif_pos, bind, Except.bind, ht] at h
    rw [hlower] at hle hgap hmin h
    have hskip : Blocks.enum (e.upcoming zone after) (zone.localDay after) (dateMax + 1)
        = Blocks.enum (e.upcoming zone after) t (dateMax + 1) :=
      Blocks.enum_skip_left hle fun d h1 h2 => e.upcoming_of_not_match zone (hgap d h1 h2)
    rw [hskip]
    rcases @nextLoop_cases e zone after count ((dateMax - zone.localDay after).toNat + 2) t []
      (by omega) (by omega) (by omega) (Nat.pos_of_ne_zero hcount) with hok | ⟨-, herr⟩
    · rw [hok] at h
      cases h
      rw [List.nil_append]
    · rw [herr] at h
      cases h
  · unfold dateOf at h
    simp only [hsup, dif_neg, not_false_iff, bind, Except.bind] at h
    cases h

/-- **The preview of a cron schedule lists its first occurrences**, where local dates never
decrease. -/
theorem nextInZone_firstOf (hmono : zone.DateMonotone) {count : Nat} {l : List Int}
    (h : e.nextInZone after count zone = .ok l) :
    Increasing.FirstOf (fun t => e.Occurs zone t ∧ zone.localDay t ≤ dateMax) after count l := by
  by_cases hcount : count = 0
  · subst hcount
    cases h
    exact .nil _ _
  rw [e.nextInZone_eq_ok zone hcount h]
  apply Increasing.FirstOf.of_take
  · apply Blocks.sortedLT_enum
    · intro d
      exact Increasing.sortedLT_filter (e.sortedLT_dayOccurrences zone d) _
    · intro d d' _ hlt _ u hu v hv
      have hdu := e.localDay_of_mem zone (List.mem_of_mem_filter hu)
      have hdv := e.localDay_of_mem zone (List.mem_of_mem_filter hv)
      by_contra hle
      have := hmono v u (by omega)
      omega
  · intro t
    rw [Blocks.mem_enum]
    constructor
    · rintro ⟨d, -, hd, ht⟩
      obtain ⟨hmem, hlt⟩ := List.mem_filter.mp ht
      have hday := e.localDay_of_mem zone hmem
      exact ⟨of_decide_eq_true hlt, ⟨d, hmem⟩, by omega⟩
    · rintro ⟨hlt, hocc, hmax⟩
      refine ⟨zone.localDay t, hmono after t hlt.le, by omega, List.mem_filter.mpr ⟨?_, ?_⟩⟩
      · exact (e.occurs_iff zone).mp hocc
      · exact decide_eq_true hlt

end CronExpression

/-! ## The walk by intervals -/

theorem intervalWalk_eq_ok {step : Int} {count : Nat} {current : Int} {l : List Int}
    (h : intervalWalk step count current = .ok l) :
    l = (List.range count).map (fun i => current + (i : Nat) * step) := by
  induction count generalizing current l with
  | zero =>
    cases h
    rfl
  | succ count ih =>
    unfold intervalWalk at h
    cases hnext : checked (current + step) with
    | none =>
      simp only [hnext] at h
      cases h
    | some next =>
      obtain rfl : current + step = next := by
        unfold checked at hnext
        split at hnext
        · exact Option.some.inj hnext
        · cases hnext
      simp only [hnext] at h
      cases hrest : intervalWalk step count (current + step) with
      | error e =>
        simp only [hrest] at h
        cases h
      | ok rest =>
        simp only [hrest] at h
        cases h
        rw [ih hrest, List.range_succ_eq_map, List.map_cons, List.map_map]
        congr 1
        · simp
        apply List.map_congr_left
        intro i _
        simp only [Function.comp_apply, Nat.succ_eq_add_one]
        push_cast
        ring

theorem multiple_eq {interval : Nat} (hv : ValidInterval interval) (anchor after : Int) :
    (if saturate (after - anchor) < 0 then 0
      else saturate (saturate (after - anchor) / interval + 1))
        = firstIndex interval anchor after := by
  have hbounds := index_bounds hv (after - anchor)
  have hstep : (0 : Int) < interval := by
    have := hv.whole_seconds.1
    omega
  unfold firstIndex
  by_cases hneg : saturate (after - anchor) < 0
  · have hdiv : saturate (after - anchor) / interval < 0 := Int.ediv_neg_of_neg_of_pos hneg hstep
    rw [if_pos hneg]
    omega
  have hdiv : 0 ≤ saturate (after - anchor) / interval := Int.ediv_nonneg (by omega) hstep.le
  rw [if_neg hneg, saturate_eq_self (by unfold InI64 i64Min i64Max; omega)]
  omega

/-- The first listed index is the first after `after`. Where the distance from the anchor saturates,
the product overflows, so nothing is listed. -/
theorem intervalOccurrences_eq_ok {interval : Nat} {anchor after : Int} {count : Nat} {l : List Int}
    (hcount : count ≠ 0) (h : intervalOccurrences interval anchor after count = .ok l) :
    ValidInterval interval ∧ ∃ m : Nat, after < anchor + m * interval ∧
      (∀ k : Nat, k < m → anchor + k * interval ≤ after) ∧
      l = (List.range count).map (fun i => anchor + (m + (i : Nat) : Nat) * interval) := by
  unfold intervalOccurrences at h
  by_cases hbad : interval < 1000000 ∨ interval % 1000000 ≠ 0
  · rw [if_pos hbad] at h
    cases h
  rw [if_neg hbad, if_neg hcount] at h
  unfold i64OfNat at h
  by_cases hmax : (interval : Int) ≤ i64Max
  · have hv : ValidInterval interval := ⟨hmax, by omega, by omega⟩
    simp only [hmax, if_true, multiple_eq hv] at h
    have h0 : 0 ≤ firstIndex interval anchor after := le_max_left _ _
    obtain ⟨m, hm⟩ := Int.eq_ofNat_of_zero_le h0
    rw [hm] at h
    cases hproduct : checked ((m : Int) * interval) with
    | none =>
      simp only [hproduct, Option.bind_none] at h
      cases h
    | some product =>
      obtain ⟨hin, rfl⟩ := checked_eq_some_iff.mp hproduct
      cases hsum : checked (anchor + m * interval) with
      | none =>
        simp only [hproduct, Option.bind_some, hsum] at h
        cases h
      | some current =>
        obtain ⟨-, rfl⟩ := checked_eq_some_iff.mp hsum
        simp only [hproduct, Option.bind_some, hsum] at h
        refine ⟨hv, m, ?_, ?_, ?_⟩
        -- the index is found with saturated differences, which the checked product undoes
        · have hlt := (firstIndex_le_iff hv (Int.natCast_nonneg m)).mp hm.le
          have hle := hin.2
          generalize (m : Int) * interval = product at hlt hle ⊢
          unfold saturate i64Min i64Max at hlt
          unfold i64Max at hle
          omega
        · intro k hk
          have hnot : ¬ firstIndex interval anchor after ≤ k := by omega
          rw [firstIndex_le_iff hv (Int.natCast_nonneg k)] at hnot
          have h0 : (0 : Int) ≤ k * interval := by positivity
          generalize (k : Int) * interval = product at hnot h0 ⊢
          unfold saturate i64Min i64Max at hnot
          omega
        · rw [intervalWalk_eq_ok h]
          apply List.map_congr_left
          intro i _
          push_cast
          ring
  · simp only [hmax, if_false] at h
    cases h

/-- **The preview of an interval lists its first occurrences.** -/
theorem intervalOccurrences_firstOf {interval : Nat} {anchor after : Int} {count : Nat}
    {l : List Int} (h : intervalOccurrences interval anchor after count = .ok l) :
    Increasing.FirstOf (fun t => ∃ k : Nat, t = anchor + k * interval) after count l := by
  by_cases hcount : count = 0
  · subst hcount
    unfold intervalOccurrences at h
    split at h
    · cases h
    rw [if_pos rfl] at h
    cases h
    exact .nil _ _
  · obtain ⟨hv, m, hafter, hbefore, rfl⟩ := intervalOccurrences_eq_ok hcount h
    have hstep : (0 : Int) < interval := by
      have := hv.whole_seconds.1
      omega
    have hmono : ∀ j k : Nat, j < k → anchor + (j : Int) * interval < anchor + k * interval := by
      intro j k hjk
      have : (j : Int) * interval < k * interval := by
        apply Int.mul_lt_mul_of_pos_right _ hstep
        omega
      omega
    refine ⟨?_, ?_, by rw [List.length_map, List.length_range], ?_⟩
    · rw [List.sortedLT_iff_pairwise, List.pairwise_map]
      exact List.pairwise_lt_range.imp fun hij => hmono _ _ (by omega)
    · intro t ht
      obtain ⟨i, -, rfl⟩ := List.mem_map.mp ht
      refine ⟨?_, m + i, rfl⟩
      rcases Nat.eq_zero_or_pos i with rfl | hi
      · exact hafter
      · exact hafter.trans (hmono m (m + i) (by omega))
    -- a time that is not listed lies behind the last listed one
    · rintro t ⟨k, rfl⟩ hlt hnot
      have hkm : m ≤ k := by
        by_contra hk
        have := hbefore k (by omega)
        omega
      have hk : m + count ≤ k := by
        by_contra hk
        refine hnot (List.mem_map.mpr ⟨k - m, List.mem_range.mpr (by omega), ?_⟩)
        rw [Nat.add_sub_cancel' hkm]
      refine ⟨by rw [List.length_map, List.length_range], ?_⟩
      intro u hu
      obtain ⟨i, hi, rfl⟩ := List.mem_map.mp hu
      have := List.mem_range.mp hi
      exact hmono _ _ (by omega)

theorem intervalOccurrences_reach {interval : Nat} {anchor after : Int} {count : Nat} {l : List Int}
    (h : intervalOccurrences interval anchor after count = .ok l) (b : Int) :
    (∀ k : Nat, after < anchor + k * interval → anchor + k * interval ≤ b →
        (count ≤ k → anchor + (k - count : Nat) * interval ≤ after) →
          (k * interval : Int) ≤ i64Max) ↔
      ∀ t ∈ l, t ≤ b → t ≤ anchor + i64Max := by
  by_cases hcount : count = 0
  · subst hcount
    unfold intervalOccurrences at h
    split at h
    · cases h
    rw [if_pos rfl] at h
    cases h
    refine iff_of_true (fun k hk _ hfirst => ?_) (by simp)
    have := hfirst (Nat.zero_le k)
    rw [Nat.sub_zero] at this
    omega
  obtain ⟨hv, m, hafter, hbefore, rfl⟩ := intervalOccurrences_eq_ok hcount h
  have hmono : ∀ j k : Nat, j ≤ k → (j : Int) * interval ≤ k * interval :=
    fun j k hjk => Int.mul_le_mul_of_nonneg_right (by omega) (by omega)
  constructor
  · intro hreach t ht hle
    obtain ⟨i, hi, rfl⟩ := List.mem_map.mp ht
    have hlt := hmono m (m + i) (by omega)
    have := hreach (m + i) (by omega) hle fun hk => hbefore _ (by
      have := List.mem_range.mp hi
      omega)
    omega
  -- among the first `count` times after `after` means listed
  · intro hreach k hk hle hfirst
    have hkm : m ≤ k := by
      by_contra hcon
      have := hbefore k (by omega)
      omega
    have hlast : k < m + count := by
      by_contra hcon
      have := hmono m (k - count) (by omega)
      have := hfirst (by omega)
      omega
    have := hreach _ (List.mem_map.mpr ⟨k - m, List.mem_range.mpr (by omega), rfl⟩)
    rw [Nat.add_sub_cancel' hkm] at this
    have := this hle
    omega

/-! ## The preview and the reconciliation -/

namespace CompiledSchedule

variable (zones : ZoneTable) (localZone : Zone)

/-- `t` is an occurrence on a date of the calendar. -/
def Due : CompiledSchedule → Int → Prop
  | .at at_, t => t = at_
  | .every interval anchor, t => ∃ k : Nat, t = anchor + k * interval
  | .cron e timezone, t => ∃ zone, timezone.resolveWith zones localZone = .ok zone ∧
      e.Occurs zone t ∧ zone.localDay t ≤ dateMax

/-- The first `n` occurrences after `a` are in reach of the index arithmetic, as far as they are not
after `b`: occurrence `k` is one of them if the one `n` before it is not after `a`. -/
def ListedInReach (a b : Int) (n : Nat) : CompiledSchedule → Prop
  | .every interval anchor => ∀ k : Nat, a < anchor + k * interval → anchor + k * interval ≤ b →
      (n ≤ k → anchor + (k - n : Nat) * interval ≤ a) → (k * interval : Int) ≤ i64Max
  | _ => True

theorem Reaches.mono {s : CompiledSchedule} {t u : Int} (h : s.Reaches u) (hle : t ≤ u) :
    s.Reaches t := by
  cases s with
  | every interval anchor =>
    have hu : u ≤ anchor + i64Max := h
    exact hle.trans hu
  | «at» | cron => trivial

variable {zones localZone}

theorem Due.occurs {s : CompiledSchedule} {t : Int} (h : s.Due zones localZone t) :
    s.Occurs zones localZone t := by
  cases s with
  | every | «at» => exact h
  | cron e timezone =>
    obtain ⟨zone, hzone, hocc, -⟩ := h
    exact ⟨zone, hzone, hocc⟩

end CompiledSchedule

section Preview

variable {zones : ZoneTable} {localZone : Zone}

/-- **What is listed are the first occurrences**, and the schedule compiles. -/
theorem Schedule.next_firstOf {schedule : Schedule} (hmono : ∀ expression timezone zone,
      schedule = .cron expression timezone → timezone.resolveWith zones localZone = .ok zone →
      zone.DateMonotone) {after : Int} {count : Nat} {l : List Int}
    (h : schedule.next zones localZone after count = .ok l) :
    ∃ s, schedule.compile zones localZone = .ok s ∧
      Increasing.FirstOf (s.Due zones localZone) after count l ∧
      ∀ b, s.ListedInReach after b count ↔ ∀ t ∈ l, t ≤ b → s.Reaches t := by
  unfold Schedule.next at h
  split at h
  · cases h
  cases schedule with
  | «at» at_ =>
    refine ⟨.at at_, rfl, ?_, fun b => iff_of_true trivial fun _ _ _ => trivial⟩
    have hl : l = if after < at_ ∧ 0 < count then [at_] else [] := (Except.ok.inj h).symm
    split at hl
    · next hdue =>
      subst hl
      refine ⟨List.sortedLT_iff_pairwise.mpr (List.pairwise_singleton _ _), ?_, hdue.2, ?_⟩
      · intro t ht
        obtain rfl := List.mem_singleton.mp ht
        exact ⟨hdue.1, rfl⟩
      · intro t hdue _ hnot
        exact absurd (List.mem_singleton.mpr hdue) hnot
    · next hnone =>
      subst hl
      refine ⟨List.sortedLT_iff_pairwise.mpr List.Pairwise.nil, by simp, Nat.zero_le _, ?_⟩
      intro t hdue hlt _
      obtain rfl : t = at_ := hdue
      refine ⟨?_, by simp⟩
      rw [List.length_nil]
      omega
  | every interval anchor =>
    refine ⟨.every interval anchor, ?_, intervalOccurrences_firstOf h, intervalOccurrences_reach h⟩
    -- compilation makes the checks of the preview and asks for no times
    have hcompile : ∃ l', intervalOccurrences interval anchor anchor 0 = .ok l' := by
      have h : intervalOccurrences interval anchor after count = .ok l := h
      unfold intervalOccurrences at h ⊢
      split at h
      · cases h
      · next hgood => exact ⟨[], by rw [if_neg hgood, if_pos rfl]⟩
    obtain ⟨l', hl'⟩ := hcompile
    simp only [Schedule.compile, hl']
  | cron expression timezone =>
    dsimp only at h
    cases hparse : CronExpression.parse expression with
    | error e =>
      simp only [hparse] at h
      cases h
    | ok e =>
      cases hzone : timezone.resolveWith zones localZone with
      | error err =>
        simp only [hparse, hzone] at h
        cases h
      | ok zone =>
        simp only [hparse, hzone] at h
        refine ⟨.cron e timezone, by simp only [Schedule.compile, hzone, hparse], ?_,
          fun b => iff_of_true trivial fun _ _ _ => trivial⟩
        have hfirst := e.nextInZone_firstOf zone (hmono _ _ zone rfl hzone) h
        -- what is due is said by the expression and the zone that the name resolves to
        have hdue : ∀ t, (CompiledSchedule.cron e timezone).Due zones localZone t ↔
            e.Occurs zone t ∧ zone.localDay t ≤ dateMax := by
          intro t
          constructor
          · rintro ⟨zone', hzone', hocc⟩
            rw [hzone] at hzone'
            cases hzone'
            exact hocc
          · intro hocc
            exact ⟨zone, hzone, hocc⟩
        rw [show (CompiledSchedule.cron e timezone).Due zones localZone
          = fun t => e.Occurs zone t ∧ zone.localDay t ≤ dateMax from
            funext fun t => propext (hdue t)]
        exact hfirst

theorem Schedule.eq_cron_of_compile {schedule : Schedule} {e : CronExpression}
    {timezone : ScheduleTimeZone}
    (h : schedule.compile zones localZone = .ok (.cron e timezone)) :
    ∃ expression, schedule = .cron expression timezone := by
  cases schedule with
  | cron expression timezone' =>
    unfold Schedule.compile at h
    dsimp only at h
    split at h
    · cases h
    split at h
    · cases h
    · cases h
      exact ⟨expression, rfl⟩
  | every interval anchor =>
    unfold Schedule.compile at h
    dsimp only at h
    split at h
    · cases h
    · cases h
  | «at» at_ => cases h

theorem CompiledSchedule.Occurs.due {s : CompiledSchedule} (hs : Admissible zones localZone s)
    {t b : Int} (h : s.Occurs zones localZone t) (hb : EndSupported zones localZone b s)
    (hle : t ≤ b) : s.Due zones localZone t := by
  cases s with
  | «at» | every => exact h
  | cron e timezone =>
    obtain ⟨zone, hzone, hocc⟩ := h
    obtain ⟨zone₁, hzone₁, hmono⟩ := hs
    obtain ⟨zone₂, hzone₂, hb, -⟩ := hb
    cases hzone.symm.trans hzone₁
    cases hzone.symm.trans hzone₂
    exact ⟨zone, hzone, hocc, (hmono t b hle).trans (zone.localDay_bounds hb).2⟩

/-- Reconciling the range accounts, under every policy, for one list of occurrences, and the listed
instants of the range are the first of them. -/
def PreviewShows (zones : ZoneTable) (localZone : Zone) (a b : Int) (n : Nat) (s : CompiledSchedule)
    (listed : List Int) : Prop :=
  ∃ occ, (∀ missedRun startDeadline limit elapsed, 1 ≤ limit ∧ limit ≤ 1000 →
      ∃ r, s.reconcile zones localZone a b missedRun startDeadline limit elapsed = .ok r ∧
        Accounts s zones localZone a b missedRun startDeadline limit elapsed r occ) ∧
    listed.filter (· ≤ b) = occ.take n

/-- **The preview shows what will run exactly when the ends of the range can be counted from and the
first occurrences of the range are in reach of the index arithmetic.** What is listed is always
increasing and after the given instant. -/
theorem Schedule.preview_iff {schedule : Schedule} (hmono : ∀ expression timezone zone,
      schedule = .cron expression timezone → timezone.resolveWith zones localZone = .ok zone →
      zone.DateMonotone)
    (hanchor : ∀ interval anchor, schedule = .every interval anchor → InI64 anchor) {a b : Int}
    (ha : InI64 a) (hb : InI64 b) (hab : a < b) {n : Nat} {listed : List Int}
    (hnext : schedule.next zones localZone a n = .ok listed) :
    listed.SortedLT ∧ (∀ t ∈ listed, a < t) ∧
      ∃ s, schedule.compile zones localZone = .ok s ∧
        (PreviewShows zones localZone a b n s listed ↔ EndSupported zones localZone a s ∧
          EndSupported zones localZone b s ∧ s.ListedInReach a b n) := by
  obtain ⟨s, hcompile, hfirst, hlisted⟩ := Schedule.next_firstOf hmono hnext
  refine ⟨hfirst.sorted, fun t ht => (hfirst.mem t ht).1, s, hcompile, ?_⟩
  have hs : Admissible zones localZone s := by
    refine (Schedule.valid_of_compile hcompile hanchor).admissible ?_
    rintro e timezone zone rfl hzone
    obtain ⟨expression, rfl⟩ := Schedule.eq_cron_of_compile hcompile
    exact hmono expression timezone zone rfl hzone
  rw [hlisted b]
  constructor
  · rintro ⟨occ, haccounts, hshown⟩
    obtain ⟨r, hr, hacc⟩ := haccounts .all none 1 .normal (by decide)
    obtain ⟨hlo, hhi⟩ := endSupported_of_ok hs ha hb hab hr
    refine ⟨hlo, hhi, fun t ht htb => ?_⟩
    obtain ⟨occ', henum, hmem⟩ := exists_enumerates hs ha hb hlo hhi
    have haccounts' : ∃ r', s.reconcile zones localZone a b .all none 1 .normal = .ok r' ∧
        Accounts s zones localZone a b .all none 1 .normal r' occ' :=
      accounts_of_enumerates henum (fun u hu => ((hmem u).mp hu).1.2.2) ha hb hab.le (by decide)
        .normal
    obtain ⟨r', hr', hacc'⟩ := haccounts'
    rw [hr] at hr'
    cases hr'
    have hlength : occ.length = occ'.length :=
      hacc.exact.accountedCount_eq.symm.trans hacc'.exact.accountedCount_eq
    -- otherwise more instants are listed than the reconciliation accounts for
    by_contra hreach
    have hnot : t ∉ occ' := fun h => hreach ((hmem t).mp h).2
    have hsubset : t :: occ' ⊆ listed.filter (· ≤ b) := by
      intro u hu
      rw [List.mem_filter, decide_eq_true_eq]
      rcases List.mem_cons.mp hu with rfl | hu
      · exact ⟨ht, htb⟩
      obtain ⟨⟨hau, hub, hoccurs⟩, hureach⟩ := (hmem u).mp hu
      refine ⟨?_, hub⟩
      by_contra hlisted
      have hlt := (hfirst.closed u (hoccurs.due hs hhi hub) hau hlisted).2 t ht
      exact hreach (hureach.mono hlt.le)
    have hnodup : (t :: occ').Nodup := List.nodup_cons.mpr ⟨hnot, henum.sorted.nodup⟩
    have hle := (List.subperm_of_subset hnodup hsubset).length_le
    have htake : (occ.take n).length ≤ occ.length := List.length_take_le' _ _
    rw [hshown, List.length_cons] at hle
    omega
  · rintro ⟨hlo, hhi, hreach⟩
    obtain ⟨occ, henum, hmem⟩ := exists_enumerates hs ha hb hlo hhi
    refine ⟨occ, fun missedRun startDeadline limit elapsed hlimit => ?_, ?_⟩
    · exact accounts_of_enumerates henum (fun u hu => ((hmem u).mp hu).1.2.2) ha hb hab.le
        hlimit elapsed
    · apply hfirst.filter_eq_take henum.sorted
      · intro t ht
        obtain ⟨⟨hat, htb, hoccurs⟩, -⟩ := (hmem t).mp ht
        exact ⟨hat, htb, hoccurs.due hs hhi htb⟩
      · intro t ht htb
        obtain ⟨hat, hdue⟩ := hfirst.mem t ht
        exact (hmem t).mpr ⟨⟨hat, htb, hdue.occurs⟩, hreach t ht htb⟩

end Preview

/-- The first hour of an hourly schedule is shown, and it runs. -/
theorem Schedule.preview_iff_hourly :
    ∃ s, (Schedule.every 3600000000 0).compile noZones .utc = .ok s ∧
      PreviewShows noZones .utc 0 3600000000 2 s [3600000000, 7200000000] := by
  have hnext : (Schedule.every 3600000000 0).next noZones .utc 0 2
      = .ok [3600000000, 7200000000] := by decide
  obtain ⟨-, -, s, hcompile, hiff⟩ := Schedule.preview_iff (by simp)
    (fun interval anchor heq => by cases heq; decide) (by decide) (by decide)
    (by decide : (0 : Int) < 3600000000) hnext
  have hs : s = .every 3600000000 0 := (Except.ok.inj hcompile).symm
  refine ⟨s, hcompile, hiff.mpr ?_⟩
  rw [hs]
  have hbound : ((3600000000 : Nat) : Int) ≤ i64Max := by decide
  refine ⟨hbound, hbound, fun k _ hk _ => ?_⟩
  unfold i64Max
  omega

/-- **An instant is listed that will not run**: further than `i64::MAX` microseconds from the
anchor, the preview still adds the interval, but the distance that the reconciliation divides
saturates. -/
theorem preview_lists_instant_out_of_reach :
    let schedule := Schedule.every 1000000000000000000 (-9000000000000000000)
    let s := CompiledSchedule.every 1000000000000000000 (-9000000000000000000)
    schedule.compile noZones .utc = .ok s ∧
      schedule.next noZones .utc (-1) 2 = .ok [0, 1000000000000000000] ∧
      s.reconcile noZones .utc (-1) 1000000000000000000 .all none 100 .normal
        = .ok ⟨[⟨0, false⟩], []⟩ ∧
      ¬ PreviewShows noZones .utc (-1) 1000000000000000000 2 s [0, 1000000000000000000] := by
  intro schedule s
  have hrun : s.reconcile noZones .utc (-1) 1000000000000000000 .all none 100 .normal
      = .ok ⟨[⟨0, false⟩], []⟩ := by decide
  refine ⟨rfl, by decide, hrun, ?_⟩
  rintro ⟨occ, haccounts, hshown⟩
  obtain ⟨r, hr, hacc⟩ := haccounts .all none 100 .normal (by decide)
  rw [hrun] at hr
  cases hr
  have hlength : occ.length = 1 := hacc.exact.accountedCount_eq.symm
  have hlisted : (occ.take 2).length = 2 := by
    rw [← hshown]
    decide
  have hle : (occ.take 2).length ≤ occ.length := List.length_take_le' _ _
  omega

end Locron
