import Locron.Schedule.Zone
import Locron.Schedule.Interval
import Locron.Lib.BitRank
import Locron.Lib.OrdSet
import Locron.Lib.Text

set_option autoImplicit false

/-! # Five-field cron expressions

The parser, the calendar match of one date, the 400-year cycle of matching days with its rank and
select, and the walks over dates that count and select occurrences between two instants. A loop
over dates is a recursion on a fuel argument, started with at least as many steps as there are
dates left to visit.
-/

namespace Locron

def cronError (message : String) : ValidationError := ⟨"cron", "invalid_cron", message⟩

/-! ## Text -/

/-- The characters that separate the fields (Unicode `White_Space`). -/
def isWhitespace (c : Char) : Bool :=
  let n := c.toNat
  (9 ≤ n && n ≤ 13) || n == 0x20 || n == 0x85 || n == 0xA0 || n == 0x1680 ||
    (0x2000 ≤ n && n ≤ 0x200A) || n == 0x2028 || n == 0x2029 || n == 0x202F || n == 0x205F ||
    n == 0x3000

def toAsciiLowercase (s : List Char) : List Char := s.map Char.toLower

def trim (s : List Char) : List Char :=
  ((s.dropWhile isWhitespace).reverse.dropWhile isWhitespace).reverse

/-- The pieces between separators, in order; consecutive separators give empty pieces. -/
def splitBy (sep : Char → Bool) : List Char → List (List Char)
  | [] => [[]]
  | c :: cs =>
    match splitBy sep cs with
    | [] => [[c]]
    | piece :: pieces => if sep c then [] :: piece :: pieces else (c :: piece) :: pieces

def splitWhitespace (s : List Char) : List (List Char) :=
  (splitBy isWhitespace s).filter (fun piece => !piece.isEmpty)

/-- The value of a run of decimal digits, if it stays in a `u8`. -/
def u8Digits (acc : Nat) : List Char → Option Nat
  | [] => some acc
  | c :: cs =>
    if c.isDigit then
      let next := acc * 10 + (c.toNat - '0'.toNat)
      if next ≤ 255 then u8Digits next cs else none
    else none

/-- `u8::from_str`: decimal digits after an optional plus sign. -/
def u8FromStr (s : List Char) : Option Nat :=
  match s with
  | [] => none
  | ['+'] => none
  | '+' :: digits => u8Digits 0 digits
  | digits => u8Digits 0 digits

/-! ## One field -/

structure Field where
  min : Nat
  max : Nat
  allowed : OrdSet Nat
  wildcard : Bool
  in_range : ∀ v ∈ allowed, min ≤ v ∧ v ≤ max

def parseValue (source : List Char) (names : List (String × Nat)) :
    Except ValidationError Nat :=
  match names.find? (fun entry => entry.1.toList = source) with
  | some (_, value) => .ok value
  | none =>
    match u8FromStr source with
    | some value => .ok value
    | none => .error (cronError "invalid cron field value")

/-- `value`, `value + step`, … up to `last`; the walk also ends where the next value leaves `u8`. -/
def insertSteps (last step : Nat) : Nat → Nat → OrdSet Nat → OrdSet Nat
  | 0, _, allowed => allowed
  | fuel + 1, value, allowed =>
    if value ≤ last then
      let allowed := allowed.insert value
      if value + step ≤ 255 then insertSteps last step fuel (value + step) allowed else allowed
    else allowed

/-- The text of the bounds of a segment, and its step. -/
def readStep (names : List (String × Nat)) (segment : List Char) :
    Except ValidationError (List Char × Nat) :=
  match Text.splitOnce '/' segment with
  | some (base, text) => do
      let step ← parseValue text names
      if step = 0 then .error (cronError "cron step must be positive") else .ok (base, step)
  | none => .ok (segment, 1)

def readBounds (min max : Nat) (names : List (String × Nat)) (base : List Char) :
    Except ValidationError (Nat × Nat) :=
  if base = ['*'] then .ok (min, max)
  else
    match Text.splitOnce '-' base with
    | some (start, last) => do .ok (← parseValue start names, ← parseValue last names)
    | none => do
        let value ← parseValue base names
        .ok (value, value)

/-- The bounds and the step of one comma-separated segment. -/
def parseSegment (segment : List Char) (min max : Nat) (names : List (String × Nat)) :
    Except ValidationError (Nat × Nat × Nat) := do
  let (base, step) ← readStep names segment
  let (start, last) ← readBounds min max names base
  if start < min ∨ max < last ∨ last < start then
    .error (cronError "cron field value is out of range")
  else .ok (start, last, step)

def parseSegments (min max : Nat) (names : List (String × Nat)) :
    List (List Char) → OrdSet Nat → Except ValidationError (OrdSet Nat)
  | [], allowed => .ok allowed
  | segment :: segments, allowed =>
    match parseSegment segment min max names with
    | .error e => .error e
    | .ok (start, last, step) =>
      parseSegments min max names segments (insertSteps last step 256 start allowed)

theorem parseSegment_range {segment : List Char} {min max start last step : Nat}
    {names : List (String × Nat)}
    (h : parseSegment segment min max names = .ok (start, last, step)) :
    min ≤ start ∧ last ≤ max := by
  unfold parseSegment at h
  simp only [bind, Except.bind] at h
  repeat' split at h
  all_goals first
    | (cases h; omega)
    | cases h

theorem insertSteps_range {last step value v : Nat} (fuel : Nat) {allowed : OrdSet Nat}
    (h : v ∈ insertSteps last step fuel value allowed) :
    v ∈ allowed ∨ (value ≤ v ∧ v ≤ last) := by
  induction fuel generalizing value allowed with
  | zero => exact Or.inl h
  | succ fuel ih =>
    unfold insertSteps at h
    simp only at h
    split at h
    · split at h
      · rcases ih h with hin | hin
        · rcases OrdSet.mem_insert.mp hin with rfl | hin
          · exact Or.inr ⟨le_refl _, by omega⟩
          · exact Or.inl hin
        · exact Or.inr ⟨by omega, hin.2⟩
      · rcases OrdSet.mem_insert.mp h with rfl | hin
        · exact Or.inr ⟨le_refl _, by omega⟩
        · exact Or.inl hin
    · exact Or.inl h

/-- Parsing keeps every allowed value inside the field's bounds. -/
theorem parseSegments_range {min max : Nat} {names : List (String × Nat)}
    {segments : List (List Char)} {allowed result : OrdSet Nat}
    (h : parseSegments min max names segments allowed = .ok result)
    (hin : ∀ v ∈ allowed, min ≤ v ∧ v ≤ max) : ∀ v ∈ result, min ≤ v ∧ v ≤ max := by
  induction segments generalizing allowed with
  | nil => cases h; exact hin
  | cons segment segments ih =>
    unfold parseSegments at h
    split at h
    · cases h
    next start last step hseg =>
    have hb := parseSegment_range hseg
    apply ih h
    intro v hv
    rcases insertSteps_range 256 hv with hv | hv
    · exact hin v hv
    · omega

namespace Field

def parse (source : List Char) (min max : Nat) (names : List (String × Nat)) :
    Except ValidationError Field :=
  let source := toAsciiLowercase source
  let wildcard := source = ['*'] || (source.take 2 = ['*', '/'])
  match h : parseSegments min max names (splitBy (· == ',') source) OrdSet.empty with
  | .error e => .error e
  | .ok allowed =>
    if allowed.size = 0 then .error (cronError "cron field is empty")
    else .ok ⟨min, max, allowed, wildcard, parseSegments_range h (by simp)⟩

/-- Sunday is written `0` or `7`; only `0` is kept. -/
def normalizeSunday (f : Field) (h : f.min = 0) (h' : f.max ≤ 7) : Field where
  min := f.min
  max := 6
  allowed := if 7 ∈ f.allowed then (f.allowed.erase 7).insert 0 else f.allowed
  wildcard := f.wildcard
  in_range := by
    intro v hv
    refine ⟨by omega, ?_⟩
    have hmax : ∀ v ∈ f.allowed, v ≤ 7 := fun v hv => le_trans (f.in_range v hv).2 h'
    split at hv
    · rcases OrdSet.mem_insert.mp hv with rfl | hv
      · omega
      have h7 := OrdSet.mem_erase.mp hv
      have := hmax v h7.1
      have := h7.2
      omega
    · next hno =>
      have := hmax v hv
      have : v ≠ 7 := by rintro rfl; exact hno hv
      omega

def Matches (f : Field) (value : Nat) : Prop :=
  f.min ≤ value ∧ value ≤ f.max ∧ value ∈ f.allowed

instance (f : Field) (value : Nat) : Decidable (f.Matches value) :=
  inferInstanceAs (Decidable (_ ∧ _ ∧ _))

theorem parse_bounds {source : List Char} {min max : Nat} {names : List (String × Nat)} {f : Field}
    (h : parse source min max names = .ok f) : f.min = min ∧ f.max = max := by
  unfold parse at h
  simp only at h
  split at h
  · cases h
  split at h
  · cases h
  · cases h; exact ⟨rfl, rfl⟩

end Field

/-! ## The calendar match -/

/-- The five parsed fields. -/
structure CronFields where
  minute : Field
  hour : Field
  day : Field
  month : Field
  weekday : Field
  minute_lt : ∀ v ∈ minute.allowed, v < 60
  hour_lt : ∀ v ∈ hour.allowed, v < 24

def gregorianCycleDays : Int := 146097

def gregorianCycleWords : Nat := 2283

/-- The days of a 400-year cycle that match, as words of 64 bits with their prefix counts. -/
structure MatchingDayCycle where
  words : List Nat
  prefixCounts : List Nat
  count : Nat

namespace MatchingDayCycle

def fromWords (words : List Nat) : MatchingDayCycle where
  words := words
  prefixCounts := BitRank.prefixes 64 words
  count := (BitRank.prefixes 64 words).getLastD 0

def rankBefore (cycle : MatchingDayCycle) (offset : Int) : Nat :=
  if offset ≤ 0 then 0
  else if gregorianCycleDays ≤ offset then cycle.count
  else BitRank.rank 64 cycle.words cycle.prefixCounts offset.toNat

def select (cycle : MatchingDayCycle) (rank : Nat) : Option Int :=
  if cycle.count ≤ rank then none
  else some (BitRank.select 64 cycle.words cycle.prefixCounts rank)

end MatchingDayCycle

namespace CronFields

/-- The date with this day number matches the month, day and weekday fields. -/
def dateMatches (f : CronFields) (day : Int) : Bool :=
  let civil := Calendar.ofDay day
  let dayMatches := decide (f.day.Matches civil.day.toNat)
  let weekdayMatches := decide (f.weekday.Matches (Calendar.weekday day).toNat)
  let calendarDayMatches :=
    if f.day.wildcard && f.weekday.wildcard then true
    else if f.day.wildcard then weekdayMatches
    else if f.weekday.wildcard then dayMatches
    else dayMatches || weekdayMatches
  decide (f.month.Matches civil.month.toNat) && calendarDayMatches

/-- The walk over one cycle, from `0000-01-01`, that sets the bit of each matching day. -/
def buildMatchingDayOffsets (f : CronFields) : MatchingDayCycle :=
  MatchingDayCycle.fromWords
    ((List.range gregorianCycleDays.toNat).foldl
      (fun words (offset : Nat) =>
        if f.dateMatches offset then BitRank.setBit 64 words offset else words)
      (List.replicate gregorianCycleWords 0))

/-- The wall clock times of a matching date, in order. -/
def slots (f : CronFields) : List (Nat × Nat) :=
  f.hour.allowed.toList.flatMap (fun hour => f.minute.allowed.toList.map (fun m => (hour, m)))

end CronFields

structure CronExpression extends CronFields where
  matchingDays : MatchingDayCycle
  cycle_eq : matchingDays = toCronFields.buildMatchingDayOffsets
  nonempty : matchingDays.count ≠ 0

def monthNames : List (String × Nat) :=
  [("jan", 1), ("feb", 2), ("mar", 3), ("apr", 4), ("may", 5), ("jun", 6), ("jul", 7), ("aug", 8),
    ("sep", 9), ("oct", 10), ("nov", 11), ("dec", 12)]

def weekdayNames : List (String × Nat) :=
  [("sun", 0), ("mon", 1), ("tue", 2), ("wed", 3), ("thu", 4), ("fri", 5), ("sat", 6)]

/-- The five fields an alias stands for. -/
def expandAlias (source : List Char) : Except ValidationError (List Char) :=
  let value := toAsciiLowercase (trim source)
  if value = "@yearly".toList ∨ value = "@annually".toList then .ok "0 0 1 1 *".toList
  else if value = "@monthly".toList then .ok "0 0 1 * *".toList
  else if value = "@weekly".toList then .ok "0 0 * * 0".toList
  else if value = "@daily".toList ∨ value = "@midnight".toList then .ok "0 0 * * *".toList
  else if value = "@hourly".toList then .ok "0 * * * *".toList
  else if value.head? = some '@' then .error (cronError "unsupported cron alias")
  else .ok source

def parseFields (parts : List (List Char)) : Except ValidationError CronFields :=
  match parts with
  | [minuteText, hourText, dayText, monthText, weekdayText] =>
    match hmin : Field.parse minuteText 0 59 [] with
    | .error e => .error e
    | .ok minute =>
      match hhour : Field.parse hourText 0 23 [] with
      | .error e => .error e
      | .ok hour =>
        match Field.parse dayText 1 31 [] with
        | .error e => .error e
        | .ok day =>
          match Field.parse monthText 1 12 monthNames with
          | .error e => .error e
          | .ok month =>
            match hweek : Field.parse weekdayText 0 7 weekdayNames with
            | .error e => .error e
            | .ok weekday =>
              .ok {
                minute, hour, day, month
                weekday := weekday.normalizeSunday (Field.parse_bounds hweek).1
                  (Field.parse_bounds hweek).2.le
                minute_lt := fun v hv => by
                  have := (minute.in_range v hv).2
                  rw [(Field.parse_bounds hmin).2] at this
                  omega
                hour_lt := fun v hv => by
                  have := (hour.in_range v hv).2
                  rw [(Field.parse_bounds hhour).2] at this
                  omega }
  | _ => .error (cronError "cron expression must have exactly five fields")

namespace CronExpression

def parse (source : String) : Except ValidationError CronExpression :=
  match expandAlias source.toList with
  | .error e => .error e
  | .ok expanded =>
    match parseFields (splitWhitespace expanded) with
    | .error e => .error e
    | .ok fields =>
      if h : fields.buildMatchingDayOffsets.count = 0 then
        .error (cronError "calendar fields can never match a Gregorian date")
      else .ok ⟨fields, fields.buildMatchingDayOffsets, rfl, h⟩

end CronExpression

/-! ## Days and ranks -/

/-- Matching days before `day`, counted from day `0`: negative for earlier days. -/
def matchingPositionsBefore (day : Int) (cycle : MatchingDayCycle) : Int :=
  day / gregorianCycleDays * cycle.count + cycle.rankBefore (day % gregorianCycleDays)

/-- The cycle and the offset in it of the nearest matching day at or after `day` (`forward`), or
at or before it. -/
def matchingPosition (day : Int) (cycleDays : MatchingDayCycle) (forward : Bool) : Int × Int :=
  let cycle := day / gregorianCycleDays
  let within := day % gregorianCycleDays
  if forward then
    match cycleDays.select (cycleDays.rankBefore within) with
    | some offset => (cycle, offset)
    | none => (cycle + 1, (cycleDays.select 0).getD 0)
  else
    let rank := cycleDays.rankBefore (within + 1)
    if 0 < rank then (cycle, (cycleDays.select (rank - 1)).getD 0)
    else (cycle - 1, (cycleDays.select (cycleDays.count - 1)).getD 0)

/-- The library panics at a span of more days than this. -/
def spanDaysMax : Int := 7304484

/-- The date with a day number, counted from `0000-01-01` by a span. A panic ends the call, as an
error does. -/
def dateFromDay (day : Int) : Except ValidationError (Option Date) :=
  if -spanDaysMax ≤ day ∧ day ≤ spanDaysMax then .ok (Date.fromDay day)
  else .error ⟨"span", "panic", "value is not in the required range"⟩

/-- The nearest matching date, if the calendar reaches it. -/
def matchingDate (day : Int) (cycleDays : MatchingDayCycle) (forward : Bool) :
    Except ValidationError (Option Date) :=
  if cycleDays.count = 0 then .ok none
  else
    let (cycle, offset) := matchingPosition day cycleDays forward
    match (checked (cycle * gregorianCycleDays)).bind (fun base => checked (base + offset)) with
    | none => .error (cronError "calendar date overflows")
    | some target => dateFromDay target

/-- The local date of an instant, if the calendar supports it. -/
def dateOf (zone : Zone) (t : Int) : Except ValidationError Date :=
  if h : Supported t then .ok (zone.dateAt t h) else .error (cronError outOfRangeText)

/-- The earlier instant of a wall clock time; `none` in a gap. -/
def resolveCivil (date : Date) (hour minute : Nat) (zone : Zone) :
    Except ValidationError (Option Int) :=
  match zone.resolve (wallClock date.day hour minute) with
  | none => .ok none
  | some t => if Supported t then .ok (some t) else .error (cronError outOfRangeText)

/-- The instants of the given times of a date, in the order of the times. -/
def resolveSlots (date : Date) (zone : Zone) :
    List (Nat × Nat) → Except ValidationError (List Int)
  | [] => .ok []
  | (hour, minute) :: rest =>
    match resolveCivil date hour minute zone with
    | .error e => .error e
    | .ok candidate =>
      match resolveSlots date zone rest with
      | .error e => .error e
      | .ok candidates => .ok (candidate.toList ++ candidates)

namespace CronExpression

variable (e : CronExpression)

def matchingDateAtOrBefore (date : Date) : Except ValidationError (Option Date) :=
  matchingDate date.day e.matchingDays false

def matchingDateAtOrAfter (date : Date) : Except ValidationError (Option Date) :=
  matchingDate date.day e.matchingDays true

/-- The occurrences of one local date, sorted, without repetitions. -/
def candidatesOnDate (date : Date) (zone : Zone) : Except ValidationError (List Int) :=
  if e.dateMatches date.day then
    match resolveSlots date zone e.slots with
    | .error err => .error err
    | .ok candidates => .ok (OrdSet.ofList candidates).toList
  else .ok []

def previousDate (date : Date) : Except ValidationError (Option Date) :=
  match date.yesterday with
  | none => .ok none
  | some previous => e.matchingDateAtOrBefore previous

def nextDate (date : Date) : Except ValidationError (Option Date) :=
  match date.tomorrow with
  | none => .ok none
  | some next => e.matchingDateAtOrAfter next

end CronExpression

/-- Put the candidates of one date, newest first, in front of those kept so far; `true` when the
limit is reached. -/
def keepNewest (after through : Int) (limit : Nat) :
    List Int → List Int → Bool × List Int
  | [], newest => (false, newest)
  | candidate :: rest, newest =>
    if after < candidate ∧ candidate ≤ through then
      if newest.length + 1 = limit then (true, candidate :: newest)
      else keepNewest after through limit rest (candidate :: newest)
    else keepNewest after through limit rest newest

namespace CronExpression

variable (e : CronExpression)

/-- The walk of `newestBetween`, from the newest date down to `lower`. -/
def newestLoop (after through : Int) (limit : Nat) (zone : Zone) (lower : Date) :
    Nat → Option Date → List Int → Except ValidationError (List Int)
  | _, none, newest => .ok newest
  | 0, some _, _ => .error (cronError "date walk did not end")
  | fuel + 1, some date, newest =>
    if date.day < lower.day then .ok newest
    else
      match e.candidatesOnDate date zone with
      | .error err => .error err
      | .ok candidates =>
        match keepNewest after through limit candidates.reverse newest with
        | (true, newest) => .ok newest
        | (false, newest) =>
          match e.previousDate date with
          | .error err => .error err
          | .ok previous => newestLoop after through limit zone lower fuel previous newest

/-- The newest `limit` occurrences in `(after, through]`, oldest first. -/
def newestBetween (after through : Int) (limit : Nat) (zone : Zone) :
    Except ValidationError (List Int) := do
  let lower ← dateOf zone after
  let upper ← dateOf zone through
  let date ← e.matchingDateAtOrBefore upper
  e.newestLoop after through limit zone lower ((upper.day - lower.day).toNat + 2) date []

/-- The walk of `firstBetween`, from the oldest date up to `upper`. -/
def firstLoop (after through : Int) (zone : Zone) (upper : Date) :
    Nat → Option Date → Except ValidationError (Option Int)
  | _, none => .ok none
  | 0, some _ => .error (cronError "date walk did not end")
  | fuel + 1, some date =>
    if upper.day < date.day then .ok none
    else
      match e.candidatesOnDate date zone with
      | .error err => .error err
      | .ok candidates =>
        match candidates.find? (fun c => after < c ∧ c ≤ through) with
        | some candidate => .ok (some candidate)
        | none =>
          match e.nextDate date with
          | .error err => .error err
          | .ok next => firstLoop after through zone upper fuel next

def firstBetween (after through : Int) (zone : Zone) :
    Except ValidationError (Option Int) := do
  let lower ← dateOf zone after
  let upper ← dateOf zone through
  let date ← e.matchingDateAtOrAfter lower
  e.firstLoop after through zone upper ((upper.day - lower.day).toNat + 2) date

def matchingDaysInclusive (first last : Date) : Nat :=
  if last.day < first.day then 0
  else
    (matchingPositionsBefore (last.day + 1) e.matchingDays
      - matchingPositionsBefore first.day e.matchingDays).toNat

end CronExpression

/-- The dates from `date` to `last`, added to the set. -/
def insertDates (last : Date) :
    Nat → Date → OrdSet Date → Except ValidationError (OrdSet Date)
  | 0, _, _ => .error (cronError "date walk did not end")
  | fuel + 1, date, dates =>
    if last.day ≤ date.day then .ok (dates.insert date)
    else
      match date.tomorrow with
      | none => .error (cronError outOfRangeText)
      | some next => insertDates last fuel next (dates.insert date)

/-- The dates that a transition up to `through` skips in part or whole, added to the set. -/
def transitionDates (zone : Zone) (through : Int) :
    List Transition → OrdSet Date → Except ValidationError (OrdSet Date)
  | [], dates => .ok dates
  | tr :: rest, dates =>
    if through < tr.timestamp then .ok dates
    else
      match dateOf zone (tr.timestamp - 1), dateOf zone tr.timestamp with
      | .error err, _ => .error err
      | _, .error err => .error err
      | .ok before, .ok afterTransition =>
        -- only where the wall clock jumps forward can times of a date be missing
        if zone.localTime (tr.timestamp - 1) < zone.localTime tr.timestamp then
          match insertDates afterTransition
              ((afterTransition.day - before.day).toNat + 1) before dates with
          | .error err => .error err
          | .ok dates => transitionDates zone through rest dates
        else transitionDates zone through rest dates

namespace CronExpression

variable (e : CronExpression)

/-- On each exceptional date, replace the assumed number of times by the real one. -/
def correctCount (after through : Int) (zone : Zone) (lower upper : Date)
    (timeCount : Nat) : List Date → Nat → Except ValidationError Nat
  | [], count => .ok count
  | date :: rest, count =>
    if date.day < lower.day ∨ upper.day < date.day ∨ ¬ e.dateMatches date.day then
      correctCount after through zone lower upper timeCount rest count
    else
      match e.candidatesOnDate date zone with
      | .error err => .error err
      | .ok candidates =>
        let actual := (candidates.filter (fun c => after < c ∧ c ≤ through)).length
        correctCount after through zone lower upper timeCount rest
          (count - timeCount + actual)

/-- The number of occurrences in `(after, through]`, from the rank of the two local dates. -/
def rangeCount (after through : Int) (zone : Zone) : Except ValidationError Nat := do
  let lower ← dateOf zone after
  let upper ← dateOf zone through
  let timeCount := e.hour.allowed.size * e.minute.allowed.size
  let count := e.matchingDaysInclusive lower upper * timeCount
  let exceptional ← transitionDates zone through (zone.following after)
    ((OrdSet.empty.insert lower).insert upper)
  e.correctCount after through zone lower upper timeCount exceptional.toList count

def rangeStats (after through : Int) (zone : Zone) :
    Except ValidationError OccurrenceStats := do
  let count ← e.rangeCount after through zone
  if count = 0 then .ok OccurrenceStats.default
  else
    match ← e.firstBetween after through zone with
    | none => .error (cronError "counted range has no first occurrence")
    | some first =>
      match (← e.newestBetween after through 1 zone).head? with
      | none => .error (cronError "counted range has no last occurrence")
      | some last => .ok ⟨count, some first, some last⟩

/-- The walk of `nextInZone` over dates, from the oldest on. -/
def nextLoop (after : Int) (count : Nat) (zone : Zone) :
    Nat → Option Date → List Int → Except ValidationError (List Int)
  | _, none, result => .ok result
  | 0, some _, _ => .error (cronError "date walk did not end")
  | fuel + 1, some date, result =>
    match e.candidatesOnDate date zone with
    | .error err => .error err
    | .ok candidates =>
      let result := result ++ candidates.filter (fun c => after < c)
      if count ≤ result.length then .ok (result.take count)
      else
        match e.nextDate date with
        | .error err => .error err
        | .ok next => nextLoop after count zone fuel next result

def nextInZone (after : Int) (count : Nat) (zone : Zone) :
    Except ValidationError (List Int) := do
  if count = 0 then .ok []
  else
    let lower ← dateOf zone after
    let date ← e.matchingDateAtOrAfter lower
    e.nextLoop after count zone ((dateMax - lower.day).toNat + 2) date []

end CronExpression

end Locron
