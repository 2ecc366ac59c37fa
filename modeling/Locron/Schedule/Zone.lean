import Locron.Core.Time
import Locron.Lib.Calendar

set_option autoImplicit false

/-! # Civil dates, supported instants and time zones

The calendar library the scheduler uses works on civil dates from `-9999-01-01` to `9999-12-31`
and on the instants that every offset maps into those dates. `Date` and `Instant` carry these
bounds. A `Zone` is a finite list of offset transitions; what the library is documented to do
with one is stated here from the offset at an instant:

* `Zone.localTime`: the wall clock an instant shows;
* `Zone.resolve`: the earliest instant that shows a wall clock, `none` in a gap
  (`resolve_eq_some_iff`, `resolve_eq_none_iff`);
* `Zone.following`: the transitions after an instant.
-/

namespace Locron

def minuteMicros : Int := 60000000

def dayMicros : Int := 86400000000

/-- Day number of `1970-01-01`, counted from `0000-01-01`. -/
def epochDay : Int := 719528

/-- Day number of `-9999-01-01`. -/
def dateMin : Int := -3652059

/-- Day number of `9999-12-31`. -/
def dateMax : Int := 3652424

/-- First supported instant: `-9999-01-02T01:59:59Z`. -/
def instantMin : Int := -377705023201000000

/-- Last supported instant: `9999-12-30T22:00:00Z`. -/
def instantMax : Int := 253402207200000000

/-- Largest offset from UTC, `25:59:59`. -/
def offsetMax : Int := 93599000000

/-! ## Dates -/

/-- A civil date, as its day number. -/
@[ext]
structure Date where
  day : Int
  min_le : dateMin ≤ day
  le_max : day ≤ dateMax
deriving DecidableEq

namespace Date

instance : LinearOrder Date :=
  LinearOrder.lift' Date.day (fun _ _ h => Date.ext h)

/-- The date with a day number, if the calendar has it. -/
def fromDay (day : Int) : Option Date :=
  if h : dateMin ≤ day ∧ day ≤ dateMax then some ⟨day, h.1, h.2⟩ else none

def tomorrow (d : Date) : Option Date := fromDay (d.day + 1)

def yesterday (d : Date) : Option Date := fromDay (d.day - 1)

theorem fromDay_day (d : Date) : fromDay d.day = some d := dif_pos ⟨d.min_le, d.le_max⟩

theorem fromDay_eq_some {n : Int} {d : Date} : fromDay n = some d ↔ d.day = n := by
  constructor
  · intro h
    unfold fromDay at h
    split at h
    · cases h; rfl
    · cases h
  · rintro rfl
    exact fromDay_day d

theorem fromDay_eq_none {n : Int} : fromDay n = none ↔ n < dateMin ∨ dateMax < n := by
  unfold fromDay
  split <;> simp <;> omega

end Date

/-! ## Instants -/

def Supported (t : Int) : Prop := instantMin ≤ t ∧ t ≤ instantMax

instance (t : Int) : Decidable (Supported t) := inferInstanceAs (Decidable (_ ∧ _))

theorem Supported.mono {a b t : Int} (ha : Supported a) (hb : Supported b) (h : a ≤ t)
    (h' : t ≤ b) : Supported t := ⟨le_trans ha.1 h, le_trans h' hb.2⟩

/-- The library's text for an instant outside its range. -/
def outOfRangeText : String := "instant is not in the required range"

/-! ## Zones -/

/-- An offset transition: from `at` on, the offset is `offset`. -/
structure Transition where
  timestamp : Int
  offset : Int
deriving DecidableEq, Repr

/-- A time zone: the offset before all transitions, and the transitions in time order. -/
structure Zone where
  initial : Int
  transitions : List Transition
  sorted : transitions.Pairwise (fun a b => a.timestamp < b.timestamp)
  initial_bounded : -offsetMax ≤ initial ∧ initial ≤ offsetMax
  bounded : ∀ tr ∈ transitions, -offsetMax ≤ tr.offset ∧ tr.offset ≤ offsetMax

/-- The offset at `t`, given the offset before the transitions `ts`. -/
def offsetFrom (off : Int) : List Transition → Int → Int
  | [], _ => off
  | tr :: ts, t => if t < tr.timestamp then off else offsetFrom tr.offset ts t

/-- The first instant from `lo` on that shows the wall clock `w`, segment by segment. -/
def resolveFrom (lo : Option Int) (off : Int) : List Transition → Int → Option Int
  | [], w => if lo.all (fun l => l ≤ w - off) then some (w - off) else none
  | tr :: ts, w =>
    if lo.all (fun l => l ≤ w - off) && w - off < tr.timestamp then some (w - off)
    else resolveFrom (some tr.timestamp) tr.offset ts w

namespace Zone

def fixed (off : Int) (h : -offsetMax ≤ off ∧ off ≤ offsetMax) : Zone where
  initial := off
  transitions := []
  sorted := List.Pairwise.nil
  initial_bounded := h
  bounded := by simp

/-- Coordinated universal time. -/
def utc : Zone := fixed 0 (by decide)

def offsetAt (z : Zone) (t : Int) : Int := offsetFrom z.initial z.transitions t

/-- The wall clock at `t`, in microseconds since `1970-01-01T00:00` local. -/
def localTime (z : Zone) (t : Int) : Int := t + z.offsetAt t

/-- Day number of the local date at `t`. -/
def localDay (z : Zone) (t : Int) : Int := epochDay + z.localTime t / dayMicros

/-- The earlier instant that shows the wall clock `w`; `none` if `w` is skipped. -/
def resolve (z : Zone) (w : Int) : Option Int := resolveFrom none z.initial z.transitions w

/-- The transitions strictly after `t`, in order. -/
def following (z : Zone) (t : Int) : List Transition :=
  z.transitions.filter (fun tr => t < tr.timestamp)

end Zone

/-! ## The offset between transitions -/

theorem offsetFrom_bounded {off : Int} {ts : List Transition} (t : Int)
    (hoff : -offsetMax ≤ off ∧ off ≤ offsetMax)
    (hts : ∀ tr ∈ ts, -offsetMax ≤ tr.offset ∧ tr.offset ≤ offsetMax) :
    -offsetMax ≤ offsetFrom off ts t ∧ offsetFrom off ts t ≤ offsetMax := by
  induction ts generalizing off with
  | nil => exact hoff
  | cons tr ts ih =>
    unfold offsetFrom
    split
    · exact hoff
    · exact ih (hts tr (by simp)) (fun x hx => hts x (by simp [hx]))

theorem offsetFrom_succ {off : Int} {ts : List Transition} {t : Int}
    (h : ∀ tr ∈ ts, tr.timestamp ≠ t + 1) : offsetFrom off ts (t + 1) = offsetFrom off ts t := by
  induction ts generalizing off with
  | nil => rfl
  | cons tr ts ih =>
    have hne := h tr (by simp)
    unfold offsetFrom
    rw [ih (fun x hx => h x (by simp [hx]))]
    by_cases hlt : t < tr.timestamp
    · rw [if_pos hlt, if_pos (by omega)]
    · rw [if_neg hlt, if_neg (by omega)]

/-! ## Resolving a wall clock -/

/-- `resolveFrom lo` finds the least instant at or after `lo` that shows `w`. -/
theorem resolveFrom_spec (lo : Option Int) (off : Int) {ts : List Transition} {w : Int}
    (hs : ts.Pairwise (fun a b => a.timestamp < b.timestamp))
    (hlo : ∀ l ∈ lo, ∀ tr ∈ ts, l < tr.timestamp) :
    match resolveFrom lo off ts w with
    | some t => (∀ l ∈ lo, l ≤ t) ∧ t + offsetFrom off ts t = w ∧
        ∀ u, (∀ l ∈ lo, l ≤ u) → u + offsetFrom off ts u = w → t ≤ u
    | none => ∀ u, (∀ l ∈ lo, l ≤ u) → u + offsetFrom off ts u ≠ w := by
  induction ts generalizing lo off with
  | nil =>
    have hall : lo.all (fun l => l ≤ w - off) = true ↔ ∀ l ∈ lo, l ≤ w - off := by
      cases lo <;> simp
    unfold resolveFrom
    by_cases hin : ∀ l ∈ lo, l ≤ w - off
    · rw [if_pos (hall.mpr hin)]
      refine ⟨hin, by simp [offsetFrom], ?_⟩
      intro u _ hu
      simp only [offsetFrom] at hu
      omega
    · rw [if_neg (fun h => hin (hall.mp h))]
      intro u hlu hu
      simp only [offsetFrom] at hu
      exact hin (fun l hl => by have := hlu l hl; omega)
  | cons tr ts ih =>
    have hs' := List.pairwise_cons.mp hs
    have hall : (lo.all (fun l => l ≤ w - off) && decide (w - off < tr.timestamp)) = true ↔
        (∀ l ∈ lo, l ≤ w - off) ∧ w - off < tr.timestamp := by
      cases lo <;> simp
    unfold resolveFrom
    by_cases hin : (∀ l ∈ lo, l ≤ w - off) ∧ w - off < tr.timestamp
    · rw [if_pos (hall.mpr hin)]
      refine ⟨hin.1, ?_, ?_⟩
      · unfold offsetFrom
        rw [if_pos hin.2]
        omega
      · intro u _ hu
        unfold offsetFrom at hu
        split at hu
        · omega
        · omega
    · rw [if_neg (fun h => hin (hall.mp h))]
      -- an instant of this segment that shows `w` is `w - off`, which was just ruled out
      have hseg : ∀ u, (∀ l ∈ lo, l ≤ u) → u + offsetFrom off (tr :: ts) u = w →
          tr.timestamp ≤ u ∧ u + offsetFrom tr.offset ts u = w := by
        intro u hlu hu
        unfold offsetFrom at hu
        split at hu
        · rename_i hlt
          have : u = w - off := by omega
          subst this
          exact absurd ⟨hlu, hlt⟩ hin
        · exact ⟨by omega, hu⟩
      have hnext := ih (some tr.timestamp) tr.offset hs'.2 (by simpa using hs'.1)
      cases hr : resolveFrom (some tr.timestamp) tr.offset ts w with
      | some t =>
        rw [hr] at hnext
        obtain ⟨hge, heq, hmin⟩ := hnext
        have hge' : tr.timestamp ≤ t := by simpa using hge
        refine ⟨?_, ?_, ?_⟩
        · intro l hl
          have := hlo l hl tr (by simp)
          omega
        · unfold offsetFrom
          rw [if_neg (by omega)]
          exact heq
        · intro u hlu hu
          obtain ⟨h1, h2⟩ := hseg u hlu hu
          exact hmin u (by simpa using h1) h2
      | none =>
        rw [hr] at hnext
        intro u hlu hu
        obtain ⟨h1, h2⟩ := hseg u hlu hu
        exact hnext u (by simpa using h1) h2

namespace Zone

variable (z : Zone)

theorem offsetAt_bounded (t : Int) : -offsetMax ≤ z.offsetAt t ∧ z.offsetAt t ≤ offsetMax :=
  offsetFrom_bounded t z.initial_bounded z.bounded

/-- Away from the transitions the wall clock advances with time. -/
theorem localTime_succ {t : Int} (h : ∀ tr ∈ z.transitions, tr.timestamp ≠ t + 1) :
    z.localTime (t + 1) = z.localTime t + 1 := by
  unfold localTime offsetAt
  rw [offsetFrom_succ h]
  omega

/-- **A resolved wall clock** is shown at the instant, and at no earlier one. -/
theorem resolve_eq_some_iff {w t : Int} :
    z.resolve w = some t ↔ z.localTime t = w ∧ ∀ u, z.localTime u = w → t ≤ u := by
  have hspec := resolveFrom_spec none z.initial (w := w) z.sorted (by simp)
  unfold resolve localTime offsetAt
  cases hr : resolveFrom none z.initial z.transitions w with
  | none =>
    rw [hr] at hspec
    refine ⟨fun h => by simp at h, fun h => ?_⟩
    exact absurd h.1 (hspec t (by simp))
  | some t' =>
    rw [hr] at hspec
    obtain ⟨-, heq, hmin⟩ := hspec
    constructor
    · rintro h
      cases h
      exact ⟨heq, fun u hu => hmin u (by simp) hu⟩
    · rintro ⟨ht, htmin⟩
      have h1 := hmin t (by simp) ht
      have h2 := htmin t' heq
      rw [show t' = t by omega]

/-- **A wall clock is in a gap** when no instant shows it. -/
theorem resolve_eq_none_iff {w : Int} : z.resolve w = none ↔ ∀ u, z.localTime u ≠ w := by
  have hspec := resolveFrom_spec none z.initial (w := w) z.sorted (by simp)
  constructor
  · intro hr u hu
    unfold resolve at hr
    rw [hr] at hspec
    exact hspec u (by simp) hu
  · intro h
    cases hr : z.resolve w with
    | none => rfl
    | some t => exact absurd (z.resolve_eq_some_iff.mp hr).1 (h t)

theorem localTime_of_resolve {w t : Int} (h : z.resolve w = some t) : z.localTime t = w :=
  (z.resolve_eq_some_iff.mp h).1

/-- Two wall clocks never resolve to one instant. -/
theorem resolve_injective {v w t : Int} (hv : z.resolve v = some t) (hw : z.resolve w = some t) :
    v = w := by
  rw [← z.localTime_of_resolve hv, ← z.localTime_of_resolve hw]

theorem mem_following {t : Int} {tr : Transition} :
    tr ∈ z.following t ↔ tr ∈ z.transitions ∧ t < tr.timestamp := by
  simp [following]

theorem localDay_bounds {t : Int} (h : Supported t) :
    dateMin ≤ z.localDay t ∧ z.localDay t ≤ dateMax := by
  have hoff := z.offsetAt_bounded t
  rcases h with ⟨hlo, hhi⟩
  unfold localDay localTime
  unfold instantMin at hlo
  unfold instantMax at hhi
  unfold offsetMax at hoff
  unfold dateMin dateMax epochDay dayMicros
  omega

def dateAt (t : Int) (h : Supported t) : Date :=
  ⟨z.localDay t, (z.localDay_bounds h).1, (z.localDay_bounds h).2⟩

/-- Over time the local date never decreases. -/
def DateMonotone : Prop := ∀ s t, s ≤ t → z.localDay s ≤ z.localDay t

@[simp] theorem utc_localTime (t : Int) : utc.localTime t = t := Int.add_zero t

theorem utc_resolve (w : Int) : utc.resolve w = some w := by
  rw [resolve_eq_some_iff]
  exact ⟨utc_localTime w, fun u hu => by rw [utc_localTime] at hu; omega⟩

theorem utc_dateMonotone : utc.DateMonotone := by
  intro s t h
  unfold localDay dayMicros
  rw [utc_localTime, utc_localTime]
  omega

end Zone

def wallClock (day : Int) (hour minute : Nat) : Int :=
  (day - epochDay) * dayMicros + (hour * 60 + minute) * minuteMicros

theorem wallClock_day (day : Int) {hour minute : Nat} (hh : hour < 24) (hm : minute < 60) :
    epochDay + wallClock day hour minute / dayMicros = day := by
  unfold wallClock dayMicros minuteMicros
  omega

theorem wallClock_injective {d d' : Int} {h m h' m' : Nat} (hh : h < 24) (hm : m < 60)
    (hh' : h' < 24) (hm' : m' < 60) (heq : wallClock d h m = wallClock d' h' m') :
    d = d' ∧ h = h' ∧ m = m' := by
  unfold wallClock dayMicros minuteMicros at heq
  omega

end Locron
