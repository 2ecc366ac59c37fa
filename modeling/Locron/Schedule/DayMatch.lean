import Locron.Lib.Fallible
import Locron.Schedule.CronWalk

set_option autoImplicit false

/-! # Which dates an expression matches

What the texts of the month and of the two day fields list is stated here from their grammar
(`Lists`), and what a traditional cron makes of the three lists is `TraditionalMatch`.

* `Field.mem_allowed_iff`: the parser collects exactly the listed values;
* `CronExpression.traditional_iff`: on which dates an expression matches as a traditional cron;
* `CronExpression.candidatesOnDate_iff`: the instants of a date, from the texts and the clock.
-/

namespace Locron

/-! ## The grammar of a field -/

/-- The text of a value: a name of the field or a decimal number. -/
def Denotes (names : List (String × Nat)) (text : List Char) (value : Nat) : Prop :=
  parseValue text names = .ok value

/-- The first and the last value of a segment without its step. -/
inductive SegmentBounds (min max : Nat) (names : List (String × Nat)) :
    List Char → Nat → Nat → Prop
  | star : SegmentBounds min max names ['*'] min max
  | range {first last : List Char} {x y : Nat} (hx : Denotes names first x)
      (hy : Denotes names last y) : SegmentBounds min max names (first ++ '-' :: last) x y
  | single {text : List Char} {x : Nat} (hx : Denotes names text x) :
      SegmentBounds min max names text x x

/-- The first value, the last value and the step of a segment. -/
inductive SegmentReads (min max : Nat) (names : List (String × Nat)) :
    List Char → Nat → Nat → Nat → Prop
  | plain {base : List Char} {x y : Nat} (h : SegmentBounds min max names base x y) :
      SegmentReads min max names base x y 1
  | stepped {base text : List Char} {x y step : Nat} (h : SegmentBounds min max names base x y)
      (hstep : Denotes names text step) (hpos : 0 < step) :
      SegmentReads min max names (base ++ '/' :: text) x y step

/-- **The values a field text lists**: those of its comma-separated segments, each from its first
value up to its last in its step. -/
def Lists (min max : Nat) (names : List (String × Nat)) (text : List Char) (value : Nat) : Prop :=
  ∃ segment ∈ splitBy (· == ',') (toAsciiLowercase text), ∃ x y step,
    SegmentReads min max names segment x y step ∧ x ≤ value ∧ value ≤ y ∧ step ∣ value - x

/-- The field is `*` or `*` with a step. -/
def Starred (text : List Char) : Prop :=
  toAsciiLowercase text = ['*'] ∨ (toAsciiLowercase text).take 2 = ['*', '/']

instance (text : List Char) : Decidable (Starred text) := inferInstanceAs (Decidable (_ ∨ _))

def Words (names : List (String × Nat)) : Prop :=
  ∀ entry ∈ names, ∀ c ∈ entry.1.toList, c.isAlpha = true

theorem words_monthNames : Words monthNames := by
  unfold Words
  decide

theorem words_weekdayNames : Words weekdayNames := by
  unfold Words
  decide

theorem words_nil : Words [] := by
  intro entry h
  cases h

/-! ## Reading a segment -/

variable {s : List Char}

variable {value : Nat}

theorem isDigit_of_u8Digits {acc : Nat} (h : u8Digits acc s = some value) :
    ∀ c ∈ s, c.isDigit = true := by
  induction s generalizing acc with
  | nil =>
    intro c hc
    cases hc
  | cons x xs ih =>
    unfold u8Digits at h
    split at h
    · next hx =>
      simp only at h
      split at h
      · intro c hc
        rcases List.mem_cons.mp hc with rfl | hc
        · exact hx
        · exact ih h c hc
      · cases h
    · cases h

variable {names : List (String × Nat)}

theorem Denotes.chars (hnames : Words names) {text : List Char} (h : Denotes names text value) :
    ∀ c ∈ text, c.isAlpha = true ∨ c.isDigit = true ∨ c = '+' := by
  unfold Denotes parseValue at h
  split at h
  · next name _ hfind =>
    have hmem := List.mem_of_find?_eq_some hfind
    have htext : name.toList = text := by
      simpa using List.find?_some hfind
    intro c hc
    exact Or.inl (hnames _ hmem c (htext ▸ hc))
  · split at h
    · next v hv =>
      intro c hc
      unfold u8FromStr at hv
      split at hv
      · cases hv
      · cases hv
      · next digits _ _ =>
        rcases List.mem_cons.mp hc with rfl | hc
        · exact Or.inr (Or.inr rfl)
        · exact Or.inr (Or.inl (isDigit_of_u8Digits hv c hc))
      · exact Or.inr (Or.inl (isDigit_of_u8Digits hv c hc))
    · cases h

theorem Denotes.not_mem (hnames : Words names) {text : List Char}
    (h : Denotes names text value) {c : Char}
    (hc : ¬ (c.isAlpha = true ∨ c.isDigit = true ∨ c = '+')) : c ∉ text :=
  fun hmem => hc (h.chars hnames c hmem)

section Segment

variable {min max : Nat} {names : List (String × Nat)} (hnames : Words names)

include hnames

variable {x y : Nat}

theorem SegmentBounds.slash_not_mem {base : List Char}
    (h : SegmentBounds min max names base x y) : '/' ∉ base := by
  cases h with
  | star => decide
  | range hx hy =>
    have h1 := hx.not_mem hnames (c := '/') (by decide)
    have h2 := hy.not_mem hnames (c := '/') (by decide)
    simp [h1, h2]
  | single hx => exact hx.not_mem hnames (by decide)

theorem readBounds_eq_ok {base : List Char} :
    readBounds min max names base = .ok (x, y) ↔ SegmentBounds min max names base x y := by
  unfold readBounds
  constructor
  · intro h
    split at h
    · next hstar =>
      cases h
      exact hstar ▸ .star
    split at h
    · next start last hsplit =>
      obtain ⟨rfl, -⟩ := Text.splitOnce_eq_some.mp hsplit
      obtain ⟨v, hv, h⟩ := Except.bind_eq_ok.mp h
      obtain ⟨w, hw, h⟩ := Except.bind_eq_ok.mp h
      cases h
      exact .range hv hw
    · obtain ⟨v, hv, h⟩ := Except.bind_eq_ok.mp h
      cases h
      exact .single hv
  · intro h
    cases h with
    | star => rfl
    | @range first last _ _ hx hy =>
      have hne : first ++ '-' :: last ≠ ['*'] := by
        intro heq
        have : '-' ∈ ['*'] := heq ▸ by simp
        revert this
        decide
      have hsplit : Text.splitOnce '-' (first ++ '-' :: last) = some (first, last) :=
        Text.splitOnce_eq_some.mpr ⟨rfl, hx.not_mem hnames (by decide)⟩
      rw [if_neg hne, hsplit]
      unfold Denotes at hx hy
      simp only [hx, hy]
      rfl
    | single hx =>
      have hne : base ≠ ['*'] := by
        rintro rfl
        exact hx.not_mem hnames (c := '*') (by decide) (by simp)
      have hsplit : Text.splitOnce '-' base = none :=
        Text.splitOnce_eq_none.mpr (hx.not_mem hnames (by decide))
      rw [if_neg hne, hsplit]
      unfold Denotes at hx
      simp only [hx]
      rfl

variable {segment : List Char} {step : Nat}

theorem segmentReads_iff :
    SegmentReads min max names segment x y step ↔ ∃ base,
      readStep names segment = .ok (base, step) ∧ readBounds min max names base = .ok (x, y) := by
  constructor
  · intro h
    cases h with
    | plain hbounds =>
      refine ⟨segment, ?_, (readBounds_eq_ok hnames).mpr hbounds⟩
      unfold readStep
      rw [Text.splitOnce_eq_none.mpr (hbounds.slash_not_mem hnames)]
    | @stepped base text _ _ _ hbounds hstep hpos =>
      refine ⟨base, ?_, (readBounds_eq_ok hnames).mpr hbounds⟩
      unfold readStep
      rw [Text.splitOnce_eq_some.mpr ⟨rfl, hbounds.slash_not_mem hnames⟩]
      exact Except.bind_eq_ok.mpr ⟨step, hstep, if_neg (by omega)⟩
  · rintro ⟨base, hstep, hbounds⟩
    have hbounds := (readBounds_eq_ok hnames).mp hbounds
    unfold readStep at hstep
    split at hstep
    · next hsplit =>
      obtain ⟨rfl, -⟩ := Text.splitOnce_eq_some.mp hsplit
      obtain ⟨k, hk, hstep⟩ := Except.bind_eq_ok.mp hstep
      obtain ⟨hpos, hstep⟩ := Except.guard_eq_ok.mp hstep
      cases hstep
      exact .stepped hbounds hk (by omega)
    · cases hstep
      exact .plain hbounds

/-- **A segment is accepted** when it can be read and its values are in the range of the field. -/
theorem parseSegment_eq_ok :
    parseSegment segment min max names = .ok (x, y, step)
      ↔ SegmentReads min max names segment x y step ∧ min ≤ x ∧ y ≤ max ∧ x ≤ y := by
  unfold parseSegment
  rw [Except.bind_eq_ok, segmentReads_iff hnames]
  constructor
  · rintro ⟨⟨base, k⟩, hstep, h⟩
    obtain ⟨⟨a, b⟩, hbounds, h⟩ := Except.bind_eq_ok.mp h
    obtain ⟨hrange, h⟩ := Except.guard_eq_ok.mp h
    cases h
    exact ⟨⟨base, hstep, hbounds⟩, by omega⟩
  · rintro ⟨⟨base, hstep, hbounds⟩, hmin, hmax, hxy⟩
    refine ⟨(base, step), hstep, Except.bind_eq_ok.mpr ⟨(x, y), hbounds, ?_⟩⟩
    exact if_neg (by omega)

theorem SegmentReads.unique {x' y' step' : Nat} (h : SegmentReads min max names segment x y step)
    (h' : SegmentReads min max names segment x' y' step') : x = x' ∧ y = y' ∧ step = step' := by
  obtain ⟨base, hstep, hbounds⟩ := (segmentReads_iff hnames).mp h
  obtain ⟨base', hstep', hbounds'⟩ := (segmentReads_iff hnames).mp h'
  rw [hstep] at hstep'
  cases hstep'
  rw [hbounds] at hbounds'
  cases hbounds'
  exact ⟨rfl, rfl, rfl⟩

end Segment

/-! ## The values the parser collects -/

/-- The walk inserts the values from `value` to `last` in steps of `step`. -/
theorem mem_insertSteps {last step v : Nat} (hstep : 0 < step) (hlast : last ≤ 255) (fuel : Nat)
    {allowed : OrdSet Nat} (hfuel : last < value + fuel) :
    v ∈ insertSteps last step fuel value allowed
      ↔ v ∈ allowed ∨ (value ≤ v ∧ v ≤ last ∧ step ∣ v - value) := by
  induction fuel generalizing value allowed with
  | zero =>
    have hnone : ¬ (value ≤ v ∧ v ≤ last ∧ step ∣ v - value) := by omega
    simp [insertSteps, hnone]
  | succ fuel ih =>
    -- a later value is `value` itself or one step away from the next
    have hnext : ∀ w, value < w →
        (step ∣ w - value ↔ value + step ≤ w ∧ step ∣ w - (value + step)) := by
      intro w hw
      constructor
      · intro hdvd
        have hle := Nat.le_of_dvd (by omega) hdvd
        refine ⟨by omega, ?_⟩
        rw [show w - (value + step) = w - value - step by omega]
        exact Nat.dvd_sub hdvd (dvd_refl step)
      · rintro ⟨hle, hdvd⟩
        rw [show w - value = w - (value + step) + step by omega]
        exact Nat.dvd_add hdvd (dvd_refl step)
    unfold insertSteps
    by_cases hle : value ≤ last
    · rw [if_pos hle]
      have hself : value ≤ v ∧ v ≤ last ∧ step ∣ v - value ↔
          v = value ∨ (value + step ≤ v ∧ v ≤ last ∧ step ∣ v - (value + step)) := by
        rcases Nat.lt_trichotomy v value with hlt | rfl | hgt
        · omega
        · simp [hle]
        · rw [hnext v hgt]
          omega
      simp only
      split
      · rw [ih (by omega), OrdSet.mem_insert, hself]
        tauto
      next hbig =>
      rw [OrdSet.mem_insert, hself]
      have : ¬ (value + step ≤ v ∧ v ≤ last ∧ step ∣ v - (value + step)) := by omega
      tauto
    · rw [if_neg hle]
      have : ¬ (value ≤ v ∧ v ≤ last ∧ step ∣ v - value) := by omega
      tauto

theorem SegmentReads.step_pos {min max : Nat} {segment : List Char}
    {x y step : Nat} (h : SegmentReads min max names segment x y step) : 0 < step := by
  cases h with
  | plain => exact Nat.one_pos
  | stepped _ _ hpos => exact hpos

/-- The segments of an accepted field together list its values. -/
theorem mem_parseSegments {min max : Nat} (hnames : Words names)
    (hmax : max ≤ 255) {segments : List (List Char)} {allowed result : OrdSet Nat}
    (h : parseSegments min max names segments allowed = .ok result) {v : Nat} :
    v ∈ result ↔ v ∈ allowed ∨ ∃ segment ∈ segments, ∃ x y step,
      SegmentReads min max names segment x y step ∧ x ≤ v ∧ v ≤ y ∧ step ∣ v - x := by
  induction segments generalizing allowed with
  | nil =>
    cases h
    simp
  | cons segment segments ih =>
    unfold parseSegments at h
    split at h
    · cases h
    next x y step hseg =>
    obtain ⟨hreads, -, hy, -⟩ := (parseSegment_eq_ok hnames).mp hseg
    have hsegment : (∃ x' y' step', SegmentReads min max names segment x' y' step' ∧
        x' ≤ v ∧ v ≤ y' ∧ step' ∣ v - x') ↔ (x ≤ v ∧ v ≤ y ∧ step ∣ v - x) := by
      constructor
      · rintro ⟨x', y', step', hreads', hv⟩
        obtain ⟨rfl, rfl, rfl⟩ := hreads.unique hnames hreads'
        exact hv
      · intro hv
        exact ⟨x, y, step, hreads, hv⟩
    rw [ih h, mem_insertSteps hreads.step_pos (by omega) 256 (by omega), or_assoc,
      List.exists_mem_cons_iff, hsegment]

namespace Field

variable {f : Field} {text : List Char} {min max : Nat}

theorem parse_eq_ok (h : parse text min max names = .ok f) :
    parseSegments min max names (splitBy (· == ',') (toAsciiLowercase text)) OrdSet.empty
        = .ok f.allowed ∧
      (f.wildcard = true ↔ Starred text) := by
  unfold parse at h
  simp only at h
  split at h
  · cases h
  next allowed hallowed =>
  split at h
  · cases h
  cases h
  refine ⟨hallowed, ?_⟩
  simp [Starred]

variable {v : Nat}

/-- **The parser collects exactly the listed values.** -/
theorem mem_allowed_iff (hnames : Words names) (hmax : max ≤ 255)
    (h : parse text min max names = .ok f) :
    v ∈ f.allowed ↔ Lists min max names text v := by
  rw [mem_parseSegments hnames hmax (parse_eq_ok h).1]
  simp [Lists]

theorem matches_iff (hnames : Words names) (hmax : max ≤ 255)
    (h : parse text min max names = .ok f) :
    f.Matches v ↔ Lists min max names text v := by
  rw [← mem_allowed_iff hnames hmax h]
  constructor
  · rintro ⟨-, -, hv⟩
    exact hv
  · intro hv
    exact ⟨(f.in_range v hv).1, (f.in_range v hv).2, hv⟩

/-- Sunday matches when it is listed as `0` or as `7`. -/
theorem matches_normalizeSunday (h : f.min = 0) (h' : f.max ≤ 7) (hv : v ≤ 6) :
    (f.normalizeSunday h h').Matches v ↔ v ∈ f.allowed ∨ (v = 0 ∧ 7 ∈ f.allowed) := by
  have hmatches : (f.normalizeSunday h h').Matches v ↔ v ∈ (f.normalizeSunday h h').allowed := by
    constructor
    · rintro ⟨-, -, hmem⟩
      exact hmem
    · intro hmem
      exact ⟨by show f.min ≤ v; omega, hv, hmem⟩
  rw [hmatches]
  show v ∈ (if 7 ∈ f.allowed then (f.allowed.erase 7).insert 0 else f.allowed) ↔ _
  by_cases h7 : 7 ∈ f.allowed
  · rw [if_pos h7, OrdSet.mem_insert, OrdSet.mem_erase]
    have hne : v ≠ 7 := by omega
    tauto
  · rw [if_neg h7]
    tauto

end Field

/-! ## Traditional matching -/

structure FieldTexts where
  minute : List Char
  hour : List Char
  day : List Char
  month : List Char
  weekday : List Char

namespace FieldTexts

variable (texts : FieldTexts) (day : Int)

/-- The fields of an expression, aliases expanded. -/
def Reads (source : String) : Prop :=
  ∃ expanded, expandAlias source.toList = .ok expanded ∧
    splitWhitespace expanded
      = [texts.minute, texts.hour, texts.day, texts.month, texts.weekday]

def InMonth : Prop := Lists 1 12 monthNames texts.month (Calendar.ofDay day).month.toNat

def InDay : Prop := Lists 1 31 [] texts.day (Calendar.ofDay day).day.toNat

/-- The day-of-week field lists the weekday of the date; Sunday is `0` or `7`. -/
def InWeekday : Prop :=
  Lists 0 7 weekdayNames texts.weekday (Calendar.weekday day).toNat ∨
    (Calendar.weekday day = 0 ∧ Lists 0 7 weekdayNames texts.weekday 7)

/-- **Traditional cron**: a date of a listed month matches if both day fields list it; if both are
restricted, one that lists it is enough. -/
def TraditionalMatch : Prop :=
  texts.InMonth day ∧
    (if Starred texts.day ∨ Starred texts.weekday then texts.InDay day ∧ texts.InWeekday day
      else texts.InDay day ∨ texts.InWeekday day)

/-- A starred day field whose step leaves the date out does not meet a date that the other day field
lets pass. -/
def StepsRespected : Prop :=
  texts.InMonth day →
    (Starred texts.day → (Starred texts.weekday ∨ texts.InWeekday day) → texts.InDay day) ∧
    (Starred texts.weekday → (Starred texts.day ∨ texts.InDay day) → texts.InWeekday day)

end FieldTexts

/-- The three fields that dates are matched with. -/
theorem parseFields_ok {parts : List (List Char)} {f : CronFields} (h : parseFields parts = .ok f) :
    ∃ texts : FieldTexts,
      parts = [texts.minute, texts.hour, texts.day, texts.month, texts.weekday] ∧
      Field.parse texts.day 1 31 [] = .ok f.day ∧
      Field.parse texts.month 1 12 monthNames = .ok f.month ∧
      ∃ weekday hmin hmax, Field.parse texts.weekday 0 7 weekdayNames = .ok weekday ∧
        f.weekday = weekday.normalizeSunday hmin hmax := by
  unfold parseFields at h
  split at h
  · next minuteText hourText dayText monthText weekdayText =>
    split at h
    · cases h
    split at h
    · cases h
    split at h
    · cases h
    next day hday =>
    split at h
    · cases h
    next month hmonth =>
    split at h
    · cases h
    next weekday hweekday =>
    cases h
    exact ⟨⟨minuteText, hourText, dayText, monthText, weekdayText⟩, rfl, hday,
      hmonth, weekday, (Field.parse_bounds hweekday).1,
      (Field.parse_bounds hweekday).2.le, hweekday, rfl⟩
  · cases h

namespace CronExpression

/-- **What the program matches**: a starred day field is not consulted. -/
theorem dateMatches_iff {source : String} {e : CronExpression} (h : parse source = .ok e) :
    ∃ texts : FieldTexts, texts.Reads source ∧ ∀ day : Int, e.dateMatches day = true ↔
      texts.InMonth day ∧
        (if Starred texts.day then Starred texts.weekday ∨ texts.InWeekday day
          else if Starred texts.weekday then texts.InDay day
          else texts.InDay day ∨ texts.InWeekday day) := by
  unfold parse at h
  split at h
  · cases h
  next expanded hexpanded =>
  split at h
  · cases h
  next fields hfields =>
  split at h
  · cases h
  cases h
  obtain ⟨texts, hparts, hday, hmonth, weekday, hmin, hmax, hweekday, heq⟩ :=
    parseFields_ok hfields
  refine ⟨texts, ⟨expanded, hexpanded, hparts⟩, ?_⟩
  intro day
  have hInMonth : fields.month.Matches (Calendar.ofDay day).month.toNat
      ↔ texts.InMonth day := Field.matches_iff words_monthNames (by omega) hmonth
  have hInDay : fields.day.Matches (Calendar.ofDay day).day.toNat
      ↔ texts.InDay day := Field.matches_iff words_nil (by omega) hday
  have hbounds : 0 ≤ Calendar.weekday day ∧ Calendar.weekday day ≤ 6 := by
    unfold Calendar.weekday
    omega
  have hInWeekday : fields.weekday.Matches (Calendar.weekday day).toNat
      ↔ texts.InWeekday day := by
    rw [heq, Field.matches_normalizeSunday hmin hmax (by omega),
      Field.mem_allowed_iff words_weekdayNames (by omega) hweekday,
      Field.mem_allowed_iff words_weekdayNames (by omega) hweekday]
    unfold FieldTexts.InWeekday
    rw [show (Calendar.weekday day).toNat = 0 ↔ Calendar.weekday day = 0 by omega]
  have hStarDay := (Field.parse_eq_ok hday).2
  have hStarWeekday : fields.weekday.wildcard = true ↔ Starred texts.weekday := by
    rw [heq]
    exact (Field.parse_eq_ok hweekday).2
  show fields.dateMatches day = true ↔ _
  unfold CronFields.dateMatches
  simp only [Bool.and_eq_true, decide_eq_true_eq, hInMonth]
  apply and_congr_right
  intro _
  by_cases hd : Starred texts.day
  · have hwild := hStarDay.mpr hd
    by_cases hw : Starred texts.weekday
    · simp [hd, hw, hwild, hStarWeekday.mpr hw]
    have hnot : fields.weekday.wildcard = false := by
      simpa [hw] using hStarWeekday
    simp [hd, hw, hwild, hnot, hInWeekday]
  · have hwild : fields.day.wildcard = false := by
      simpa [hd] using hStarDay
    by_cases hw : Starred texts.weekday
    · simp [hd, hw, hwild, hStarWeekday.mpr hw, hInDay]
    have hnot : fields.weekday.wildcard = false := by
      simpa [hw] using hStarWeekday
    simp [hd, hw, hwild, hnot, hInDay, hInWeekday]

/-- **An expression matches a date as a traditional cron does** exactly when no step of a starred
day field is passed over. -/
theorem traditional_iff {source : String} {e : CronExpression} (h : parse source = .ok e) :
    ∃ texts : FieldTexts, texts.Reads source ∧ ∀ day : Int,
      ((e.dateMatches day = true ↔ texts.TraditionalMatch day) ↔ texts.StepsRespected day) := by
  obtain ⟨texts, hreads, hmatches⟩ := dateMatches_iff h
  refine ⟨texts, hreads, ?_⟩
  intro day
  rw [hmatches day]
  unfold FieldTexts.TraditionalMatch FieldTexts.StepsRespected
  -- with both fields starred the program matches every day, with one of them only the other counts
  by_cases hmonth : texts.InMonth day
  · by_cases hd : Starred texts.day
    · by_cases hw : Starred texts.weekday
      · simp only [hmonth, hd, hw, or_self, true_or, if_true, true_and, true_implies]
        tauto
      simp only [hmonth, hd, hw, or_false, false_or, if_true, true_and, true_implies,
        false_implies, and_true]
      exact ⟨fun h hin => (h.mp hin).1, fun h => ⟨fun hin => ⟨h hin, hin⟩, And.right⟩⟩
    · by_cases hw : Starred texts.weekday
      · simp only [hmonth, hd, hw, or_true, if_true, if_false, true_and, true_implies,
          false_implies, false_or]
        exact ⟨fun h hin => (h.mp hin).2, fun h => ⟨fun hin => ⟨hin, h hin⟩, And.left⟩⟩
      · simp only [hmonth, hd, hw, or_self, if_false, true_and, true_implies, false_implies]
  · simp only [hmonth, false_and, false_implies]

/-! ## The instants of a date -/

/-- The two fields that times are made of. -/
theorem parse_times {source : String} {e : CronExpression} {texts : FieldTexts}
    (h : parse source = .ok e) (hreads : texts.Reads source) :
    Field.parse texts.minute 0 59 [] = .ok e.minute ∧
      Field.parse texts.hour 0 23 [] = .ok e.hour := by
  obtain ⟨expanded, hexpanded, hparts⟩ := hreads
  unfold parse at h
  rw [hexpanded] at h
  dsimp only at h
  rw [hparts] at h
  split at h
  · cases h
  next fields hfields =>
  split at h
  · cases h
  cases h
  unfold parseFields at hfields
  dsimp only at hfields
  split at hfields
  · cases hfields
  next hminute =>
  split at hfields
  · cases hfields
  next hhour =>
  repeat' split at hfields
  all_goals cases hfields
  exact ⟨hminute, hhour⟩

/-- **What an expression means**: the instants of a date are those at which the local clock first
shows an hour and a minute that the fields list, if the date is a listed one. A time that the clock
passes over is left out, and one that it shows twice counts once. -/
theorem candidatesOnDate_iff {source : String} {e : CronExpression} (h : parse source = .ok e)
    {zone : Zone} {date : Date} {instants : List Int}
    (hdate : e.candidatesOnDate date zone = .ok instants) :
    instants.SortedLT ∧ ∃ texts : FieldTexts, texts.Reads source ∧ ∀ t, t ∈ instants ↔
      (texts.InMonth date.day ∧
        if Starred texts.day then Starred texts.weekday ∨ texts.InWeekday date.day
        else if Starred texts.weekday then texts.InDay date.day
        else texts.InDay date.day ∨ texts.InWeekday date.day) ∧
      ∃ hour minute, Lists 0 23 [] texts.hour hour ∧ Lists 0 59 [] texts.minute minute ∧
        zone.localTime t = wallClock date.day hour minute ∧
        ∀ u, zone.localTime u = wallClock date.day hour minute → t ≤ u := by
  rw [e.candidatesOnDate_eq] at hdate
  split at hdate
  · cases hdate
    obtain ⟨texts, hreads, hmatches⟩ := dateMatches_iff h
    obtain ⟨hminute, hhour⟩ := parse_times h hreads
    refine ⟨e.sortedLT_dayOccurrences zone _, texts, hreads, fun t => ?_⟩
    rw [e.mem_dayOccurrences zone, hmatches]
    simp only [Field.mem_allowed_iff words_nil (by omega) hminute,
      Field.mem_allowed_iff words_nil (by omega) hhour, Zone.resolve_eq_some_iff, exists_and_left]
  · cases hdate

/-- Noon of the second day of a month, on such a day. -/
theorem candidatesOnDate_iff_noon :
    ∃ e texts, parse "0 12 2 * *" = .ok e ∧ FieldTexts.Reads texts "0 12 2 * *" ∧
      e.candidatesOnDate ⟨719529, by decide, by decide⟩ .utc = .ok [129600000000] ∧
      ∃ hour minute, Lists 0 23 [] texts.hour hour ∧ Lists 0 59 [] texts.minute minute ∧
        Zone.utc.localTime 129600000000 = wallClock 719529 hour minute := by
  obtain ⟨e, hparse, hday, hslots⟩ := @exists_parse "0 12 2 * *" (·.slots = [(12, 0)]) 719529
    ⟨_, rfl, by decide, rfl⟩ rfl
  have hsupported : e.DaySupported .utc 719529 := fun _ => by rw [hslots]; decide
  have hoccurrences : e.dayOccurrences .utc 719529 = [129600000000] := by
    unfold dayOccurrences
    rw [if_pos hday, hslots]
    rfl
  have hdate : e.candidatesOnDate ⟨719529, by decide, by decide⟩ .utc = .ok [129600000000] := by
    rw [e.candidatesOnDate_eq, if_pos hsupported, hoccurrences]
  obtain ⟨-, texts, hreads, hmem⟩ := candidatesOnDate_iff hparse hdate
  obtain ⟨-, hour, minute, hhour, hminute, hshows, -⟩ := (hmem _).mp (List.mem_singleton_self _)
  exact ⟨e, texts, hparse, hreads, hdate, hour, minute, hhour, hminute, hshows⟩

end CronExpression

/-- `0 0 */2 * *`, parsed. -/
theorem parse_everyOtherDay : ∃ e, CronExpression.parse "0 0 */2 * *" = .ok e ∧
    e.dateMatches 719529 = true ∧ e.dateMatches 719530 = true :=
  CronExpression.exists_parse (fun f => f.dateMatches 719530 = true) ⟨_, rfl, by decide, by decide⟩

/-- **`*/2` matches every day**: 1970-01-02 matches, although the field lists the odd days. -/
theorem step_of_day_field_ignored :
    ∃ e, CronExpression.parse "0 0 */2 * *" = .ok e ∧ e.dateMatches 719529 = true ∧
      Calendar.ofDay 719529 = ⟨1970, 1, 2⟩ ∧
      ∃ texts : FieldTexts, texts.Reads "0 0 */2 * *" ∧ ¬ texts.TraditionalMatch 719529 := by
  obtain ⟨e, hparse, hday, -⟩ := parse_everyOtherDay
  refine ⟨e, hparse, hday, by decide, ⟨['0'], ['0'], "*/2".toList, ['*'], ['*']⟩,
    ⟨"0 0 */2 * *".toList, rfl, rfl⟩, ?_⟩
  rintro ⟨-, hmatch⟩
  rw [if_pos (Or.inl (by decide))] at hmatch
  obtain ⟨f, hf, hallowed⟩ : ∃ f, Field.parse "*/2".toList 1 31 [] = .ok f ∧ 2 ∉ f.allowed :=
    ⟨_, rfl, by decide⟩
  exact hallowed ((Field.mem_allowed_iff words_nil (by omega) hf).mpr hmatch.1)

/-- The equivalence at `0 0 */2 * *`. -/
theorem traditional_iff_everyOtherDay :
    ∃ e texts, CronExpression.parse "0 0 */2 * *" = .ok e ∧
      FieldTexts.Reads texts "0 0 */2 * *" ∧ ∀ day : Int,
      ((e.dateMatches day = true ↔ texts.TraditionalMatch day) ↔ texts.StepsRespected day) := by
  obtain ⟨e, hparse, -⟩ := parse_everyOtherDay
  obtain ⟨texts, hreads, h⟩ := CronExpression.traditional_iff hparse
  exact ⟨e, texts, hparse, hreads, h⟩

end Locron
