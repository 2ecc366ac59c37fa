import Locron.Schedule.MatchingDays

set_option autoImplicit false

/-! # What the walks over dates compute

For an arbitrary zone, the candidates of each date form a block (`block`), and the walks produce
the concatenation of the blocks between the two local dates, from its front (`firstLoop_eq`) or
from its back (`newestLoop_eq`). No order of the blocks is used here.
-/

namespace Locron

/-! ## The candidates of one date -/

/-- The instants of the given times of a day. -/
def resolvedSlots (zone : Zone) (day : Int) (slots : List (Nat × Nat)) : List Int :=
  slots.filterMap (fun slot => zone.resolve (wallClock day slot.1 slot.2))

/-- Every time resolves to a supported instant, or to none. -/
def SlotsSupported (zone : Zone) (day : Int) (slots : List (Nat × Nat)) : Prop :=
  ∀ t ∈ resolvedSlots zone day slots, Supported t

instance (zone : Zone) (day : Int) (slots : List (Nat × Nat)) :
    Decidable (SlotsSupported zone day slots) := inferInstanceAs (Decidable (∀ t ∈ _, _))

theorem resolveSlots_eq (date : Date) (zone : Zone) (slots : List (Nat × Nat)) :
    resolveSlots date zone slots =
      if SlotsSupported zone date.day slots then .ok (resolvedSlots zone date.day slots)
      else .error (cronError outOfRangeText) := by
  induction slots with
  | nil => simp [resolveSlots, SlotsSupported, resolvedSlots]
  | cons slot rest ih =>
    rcases slot with ⟨hour, minute⟩
    unfold resolveSlots resolveCivil
    rw [ih]
    cases hres : zone.resolve (wallClock date.day hour minute) with
    | none =>
      have hcons : resolvedSlots zone date.day ((hour, minute) :: rest)
          = resolvedSlots zone date.day rest := by
        simp [resolvedSlots, hres]
      have hiff : SlotsSupported zone date.day ((hour, minute) :: rest)
          ↔ SlotsSupported zone date.day rest := by
        rw [SlotsSupported, hcons, SlotsSupported]
      by_cases hrest : SlotsSupported zone date.day rest
      · simp [hrest, hiff, hcons]
      · simp [hrest, hiff]
    | some t =>
      have hcons : resolvedSlots zone date.day ((hour, minute) :: rest)
          = t :: resolvedSlots zone date.day rest := by
        simp [resolvedSlots, hres]
      have hiff : SlotsSupported zone date.day ((hour, minute) :: rest)
          ↔ Supported t ∧ SlotsSupported zone date.day rest := by
        rw [SlotsSupported, hcons, List.forall_mem_cons, SlotsSupported]
      by_cases ht : Supported t
      · by_cases hrest : SlotsSupported zone date.day rest
        · simp [ht, hrest, hiff, hcons]
        · simp [ht, hrest, hiff]
      · simp [ht, hiff]

namespace CronExpression

variable (e : CronExpression) (zone : Zone)

def dayOccurrences (day : Int) : List Int :=
  if e.dateMatches day then (OrdSet.ofList (resolvedSlots zone day e.slots)).toList else []

/-- The day can be enumerated: it does not match, or its times are supported. -/
def DaySupported (day : Int) : Prop :=
  e.dateMatches day = true → SlotsSupported zone day e.slots

instance (day : Int) : Decidable (e.DaySupported zone day) :=
  inferInstanceAs (Decidable (_ = true → _))

theorem candidatesOnDate_eq (date : Date) :
    e.candidatesOnDate date zone =
      if e.DaySupported zone date.day then .ok (e.dayOccurrences zone date.day)
      else .error (cronError outOfRangeText) := by
  unfold candidatesOnDate dayOccurrences DaySupported
  rw [resolveSlots_eq]
  by_cases hmatch : e.dateMatches date.day = true
  · by_cases hsup : SlotsSupported zone date.day e.slots
    · simp [hmatch, hsup]
    · simp [hmatch, hsup]
  · simp [hmatch]

theorem sortedLT_dayOccurrences (day : Int) : (e.dayOccurrences zone day).SortedLT := by
  unfold dayOccurrences
  split
  · exact OrdSet.sorted _
  · exact List.sortedLT_iff_pairwise.mpr List.Pairwise.nil

theorem mem_slots {hour minute : Nat} :
    (hour, minute) ∈ e.slots ↔ hour ∈ e.hour.allowed ∧ minute ∈ e.minute.allowed := by
  simp [CronFields.slots, OrdSet.mem_def]

theorem mem_dayOccurrences {day : Int} {t : Int} :
    t ∈ e.dayOccurrences zone day ↔ e.dateMatches day = true ∧ ∃ hour ∈ e.hour.allowed,
      ∃ minute ∈ e.minute.allowed, zone.resolve (wallClock day hour minute) = some t := by
  unfold dayOccurrences
  by_cases hmatch : e.dateMatches day = true
  · rw [if_pos hmatch, ← OrdSet.mem_def, OrdSet.mem_ofList]
    simp only [resolvedSlots, List.mem_filterMap, Prod.exists, mem_slots, hmatch, true_and]
    constructor
    · rintro ⟨hour, minute, ⟨hh, hm⟩, hres⟩
      exact ⟨hour, hh, minute, hm, hres⟩
    · rintro ⟨hour, hh, minute, hm, hres⟩
      exact ⟨hour, minute, ⟨hh, hm⟩, hres⟩
  · simp [hmatch]

/-- An occurrence shows the local date it was found on. -/
theorem localDay_of_mem {day : Int} {t : Int} (h : t ∈ e.dayOccurrences zone day) :
    zone.localDay t = day := by
  obtain ⟨-, hour, hh, minute, hm, hres⟩ := (e.mem_dayOccurrences zone).mp h
  unfold Zone.localDay
  rw [zone.localTime_of_resolve hres]
  exact wallClock_day _ (e.hour_lt hour hh) (e.minute_lt minute hm)

def block (after through : Int) (day : Int) : List Int :=
  (e.dayOccurrences zone day).filter (fun c => after < c ∧ c ≤ through)

variable {after through : Int}

theorem mem_block {d t : Int} :
    t ∈ e.block zone after through d ↔
      t ∈ e.dayOccurrences zone d ∧ after < t ∧ t ≤ through := by
  simp [block]

theorem sortedLT_block (d : Int) : (e.block zone after through d).SortedLT := by
  rw [List.sortedLT_iff_pairwise]
  exact (List.sortedLT_iff_pairwise.mp (e.sortedLT_dayOccurrences zone d)).filter _

theorem block_of_not_match {day : Int}
    (h : e.dateMatches day = false) : e.block zone after through day = [] := by
  simp [block, dayOccurrences, h]

/-- `t` is an occurrence: the earlier instant of an allowed time of a matching date. -/
def Occurs (t : Int) : Prop := ∃ day, t ∈ e.dayOccurrences zone day

theorem occurs_iff {t : Int} : e.Occurs zone t ↔ t ∈ e.dayOccurrences zone (zone.localDay t) := by
  constructor
  · rintro ⟨day, h⟩
    rw [e.localDay_of_mem zone h]
    exact h
  · intro h
    exact ⟨_, h⟩

/-- What the walks see of `(after, through]`: the blocks of the dates between those of its ends. -/
def seen (after through : Int) : List Int :=
  Blocks.enum (e.block zone after through) (zone.localDay after) (zone.localDay through + 1)

theorem mem_seen {t : Int} : t ∈ e.seen zone after through ↔ e.Occurs zone t ∧
    (after < t ∧ t ≤ through) ∧
    zone.localDay after ≤ zone.localDay t ∧ zone.localDay t ≤ zone.localDay through := by
  unfold seen
  rw [Blocks.mem_enum]
  constructor
  · rintro ⟨d, hlo, hhi, hmem⟩
    obtain ⟨hday, hrange⟩ := (e.mem_block zone).mp hmem
    have hd := e.localDay_of_mem zone hday
    exact ⟨⟨d, hday⟩, hrange, by omega, by omega⟩
  · rintro ⟨hocc, hrange, hlo, hhi⟩
    exact ⟨_, hlo, by omega, (e.mem_block zone).mpr ⟨(e.occurs_iff zone).mp hocc, hrange⟩⟩

/-- Every date between those of the two instants can be enumerated. -/
def DatesSupported (after through : Int) : Prop :=
  ∀ d, zone.localDay after ≤ d → d ≤ zone.localDay through → e.DaySupported zone d

end CronExpression

/-! ## The walk from the newest date -/

/-- `keepNewest` keeps the candidates inside the window, until the limit. -/
theorem keepNewest_eq {after through : Int} {limit : Nat} (cs newest : List Int)
    (h : newest.length < limit) :
    let kept := cs.filter (fun c => after < c ∧ c ≤ through)
    keepNewest after through limit cs newest =
      (decide (limit ≤ newest.length + kept.length),
        (kept.take (limit - newest.length)).reverse ++ newest) := by
  intro kept
  induction cs generalizing newest with
  | nil => simp [keepNewest, kept]; omega
  | cons c cs ih =>
    unfold keepNewest
    by_cases hin : after < c ∧ c ≤ through
    · have hkept : kept = c :: cs.filter (fun c => after < c ∧ c ≤ through) := by
        simp [kept, hin]
      rw [if_pos hin, hkept]
      by_cases hfull : newest.length + 1 = limit
      · rw [if_pos hfull, show limit - newest.length = 1 by omega]
        simp
        omega
      rw [if_neg hfull, ih (c :: newest) (by simp; omega)]
      rw [show limit - newest.length = limit - (newest.length + 1) + 1 by omega]
      simp only [List.length_cons, List.take_succ_cons, List.reverse_cons, List.append_assoc,
        List.singleton_append]
      congr 2
      rw [show newest.length + 1 + (cs.filter (fun c => after < c ∧ c ≤ through)).length
        = newest.length + ((cs.filter (fun c => after < c ∧ c ≤ through)).length + 1) by omega]
    · have hkept : kept = cs.filter (fun c => after < c ∧ c ≤ through) := by
        simp [kept, hin]
      rw [if_neg hin, hkept, ih newest h]

/-- The last elements of a concatenation. -/
theorem rtake_append {α : Type} (n : Nat) (xs ys : List α) :
    (xs ++ ys).rtake n = xs.rtake (n - ys.length) ++ ys.rtake n := by
  simp only [List.rtake_eq_reverse_take_reverse, List.reverse_append, List.take_append,
    List.length_reverse]

namespace CronExpression

variable (e : CronExpression) (zone : Zone) {after through : Int}

/-- From the matching day `t` down to `lower`, the walk collects the blocks from the back. The
invariant: what is kept so far is short of the limit, and every day left can be enumerated. -/
theorem newestLoop_eq {limit : Nat} {lower : Date} (fuel : Nat) (t : Int) (newest : List Int)
    (hmax : t ≤ dateMax) (hfuel : t - lower.day + 1 < fuel) (hpos : 0 < fuel)
    (hlimit : newest.length < limit)
    (hsup : ∀ d, lower.day ≤ d → d ≤ t → e.DaySupported zone d) :
    e.newestLoop after through limit zone lower fuel (Date.fromDay t) newest
      = .ok ((Blocks.enum (e.block zone after through) lower.day (t + 1)).rtake
          (limit - newest.length) ++ newest) := by
  induction fuel generalizing t newest with
  | zero => omega
  | succ fuel ih =>
    have hlower := lower.min_le
    by_cases hlt : t < lower.day
    · -- below the lower date nothing is left
      rw [Blocks.enum_of_le (by omega), List.rtake_nil, List.nil_append]
      cases hdate : Date.fromDay t with
      | none => rfl
      | some date =>
        unfold newestLoop
        rw [Date.fromDay_eq_some.mp hdate, if_pos hlt]
    · obtain ⟨date, hdate⟩ : ∃ date, Date.fromDay t = some date :=
        ⟨⟨t, by omega, hmax⟩, Date.fromDay_eq_some.mpr rfl⟩
      have hday := Date.fromDay_eq_some.mp hdate
      rw [hdate, Blocks.enum_succ (by omega), rtake_append]
      unfold newestLoop
      have hkeep : keepNewest after through limit (e.dayOccurrences zone t).reverse newest =
          (decide (limit ≤ newest.length + (e.block zone after through t).length),
            (e.block zone after through t).rtake (limit - newest.length) ++ newest) := by
        rw [keepNewest_eq _ _ hlimit, List.filter_reverse, List.length_reverse,
          ← List.rtake_eq_reverse_take_reverse]
        rfl
      rw [hday, if_neg hlt, e.candidatesOnDate_eq, hday, if_pos (hsup t (by omega) (le_refl t))]
      simp only
      rw [hkeep]
      by_cases hfull : limit ≤ newest.length + (e.block zone after through t).length
      · simp only [hfull, decide_true]
        rw [show limit - newest.length - (e.block zone after through t).length = 0 by omega,
          List.rtake_zero, List.nil_append]
      simp only [hfull, decide_false]
      have hall : (e.block zone after through t).rtake (limit - newest.length)
          = e.block zone after through t := by
        unfold List.rtake
        rw [show (e.block zone after through t).length - (limit - newest.length) = 0 by omega,
          List.drop_zero]
      rw [hall]
      unfold previousDate Date.yesterday
      rw [hday]
      cases hprev : Date.fromDay (t - 1) with
      | none =>
        rcases Date.fromDay_eq_none.mp hprev with h | h
        · rw [Blocks.enum_of_le (by omega : t ≤ lower.day), List.rtake_nil, List.nil_append]
          simp only [newestLoop]
        · omega
      | some previous =>
        have hpday := Date.fromDay_eq_some.mp hprev
        obtain ⟨t', ht', -, hle, hgap⟩ := e.matchingDateAtOrBefore_spec previous
        simp only [ht']
        rw [ih t' _ (by omega) (by omega) (by omega)
          (by rw [List.length_append]; omega) (fun d h1 h2 => hsup d h1 (by omega))]
        rw [Blocks.enum_skip_right (by omega : t' + 1 ≤ t) (fun d h1 h2 =>
          e.block_of_not_match zone (hgap d (by omega) (by omega))), List.length_append,
          List.append_assoc]
        congr 3
        omega

/-- **`newestBetween` returns the last occurrences of the enumeration.** -/
theorem newestBetween_eq {limit : Nat} (ha : Supported after) (ht : Supported through)
    (hlimit : 0 < limit) (hsup : e.DatesSupported zone after through) :
    e.newestBetween after through limit zone = .ok ((e.seen zone after through).rtake limit) := by
  obtain ⟨t, ht', -, hle, hgap⟩ := e.matchingDateAtOrBefore_spec (zone.dateAt through ht)
  have hupper : (zone.dateAt through ht).day = zone.localDay through := rfl
  have hlower : (zone.dateAt after ha).day = zone.localDay after := rfl
  have hmax := (zone.dateAt through ht).le_max
  unfold newestBetween dateOf seen
  simp only [ha, ht, dif_pos, bind, Except.bind, ht']
  rw [hupper] at hle hgap hmax
  rw [e.newestLoop_eq zone _ t [] (by omega) (by rw [hlower, hupper]; omega) (by omega) hlimit
    (by rw [hlower]; intro d h1 h2; exact hsup d h1 (by omega)), hlower]
  rw [Blocks.enum_skip_right (by omega : t + 1 ≤ zone.localDay through + 1) (fun d h1 h2 =>
    e.block_of_not_match zone (hgap d (by omega) (by omega)))]
  simp

/-! ## The walk from the oldest date -/

/-- From the matching day `t` up to `upper`, the walk finds the front of the enumeration. -/
theorem firstLoop_eq {upper : Date} (fuel : Nat) (t : Int) (hmin : dateMin ≤ t)
    (hfuel : upper.day - t + 1 < fuel) (hpos : 0 < fuel)
    (hsup : ∀ d, t ≤ d → d ≤ upper.day → e.DaySupported zone d) :
    e.firstLoop after through zone upper fuel (Date.fromDay t)
      = .ok (Blocks.enum (e.block zone after through) t (upper.day + 1)).head? := by
  induction fuel generalizing t with
  | zero => omega
  | succ fuel ih =>
    have hupper := upper.le_max
    by_cases hlt : upper.day < t
    · rw [Blocks.enum_of_le (by omega)]
      cases hdate : Date.fromDay t with
      | none => rfl
      | some date =>
        unfold firstLoop
        rw [Date.fromDay_eq_some.mp hdate, if_pos hlt]
        rfl
    · obtain ⟨date, hdate⟩ : ∃ date, Date.fromDay t = some date :=
        ⟨⟨t, hmin, by omega⟩, Date.fromDay_eq_some.mpr rfl⟩
      have hday := Date.fromDay_eq_some.mp hdate
      rw [hdate, Blocks.enum_cons (by omega), List.head?_append]
      unfold firstLoop
      rw [hday, if_neg hlt, e.candidatesOnDate_eq, hday, if_pos (hsup t (le_refl t) (by omega))]
      simp only
      rw [← List.head?_filter]
      cases hhead : ((e.dayOccurrences zone t).filter
          (fun c => decide (after < c ∧ c ≤ through))).head? with
      | some c =>
        have : (e.block zone after through t).head? = some c := hhead
        rw [this]
        rfl
      | none =>
        have : (e.block zone after through t).head? = none := hhead
        rw [this, Option.none_or]
        simp only
        unfold nextDate Date.tomorrow
        rw [hday]
        cases hnext : Date.fromDay (t + 1) with
        | none =>
          rcases Date.fromDay_eq_none.mp hnext with h | h
          · omega
          · rw [Blocks.enum_of_le (by omega : upper.day + 1 ≤ t + 1)]
            simp only [firstLoop, List.head?_nil]
        | some next =>
          have hnday := Date.fromDay_eq_some.mp hnext
          obtain ⟨t', ht', -, hle, hgap⟩ := e.matchingDateAtOrAfter_spec next
          simp only [ht']
          rw [ih t' (by omega) (by omega) (by omega) (fun d h1 h2 => hsup d (by omega) h2)]
          rw [Blocks.enum_skip_left (by omega : t + 1 ≤ t') (fun d h1 h2 =>
            e.block_of_not_match zone (hgap d (by omega) (by omega)))]

/-- **`firstBetween` returns the first occurrence of the enumeration.** -/
theorem firstBetween_eq (ha : Supported after) (ht : Supported through)
    (hsup : e.DatesSupported zone after through) :
    e.firstBetween after through zone = .ok (e.seen zone after through).head? := by
  obtain ⟨t, ht', -, hle, hgap⟩ := e.matchingDateAtOrAfter_spec (zone.dateAt after ha)
  have hupper : (zone.dateAt through ht).day = zone.localDay through := rfl
  have hlower : (zone.dateAt after ha).day = zone.localDay after := rfl
  have hmin := (zone.dateAt after ha).min_le
  unfold firstBetween dateOf seen
  simp only [ha, ht, dif_pos, bind, Except.bind, ht']
  rw [hlower] at hle hgap hmin
  rw [e.firstLoop_eq zone _ t (by omega) (by rw [hlower, hupper]; omega) (by omega)
    (by rw [hupper]; intro d h1 h2; exact hsup d (by omega) h2), hupper]
  rw [Blocks.enum_skip_left (by omega : zone.localDay after ≤ t) (fun d h1 h2 =>
    e.block_of_not_match zone (hgap d (by omega) (by omega)))]

end CronExpression

end Locron
