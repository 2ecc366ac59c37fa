import Locron.Core.Time
import Locron.Lib.Digits
import Locron.Lib.Fallible

set_option autoImplicit false

/-! # Parsing durations

`DurationMicros::from_str` cuts the last byte off a text and reads the rest as a number.

* `parseParts_eq_ok_iff`: what it accepts;
* `exact_iff`: where that is what a duration is: a run of digits and a unit.
-/

namespace Locron.Duration

def durationError (code message : String) : ValidationError := ⟨"duration", code, message⟩

def invalidDuration : ValidationError :=
  durationError "invalid_duration" "duration must be an integer followed by s, m, h, or d"

def durationZero : ValidationError :=
  durationError "duration_zero" "duration must be greater than zero"

def durationOverflow : ValidationError := durationError "duration_overflow" "duration is too large"

/-- `u64::checked_mul`. -/
def checkedMul (a b : Nat) : Option Nat := if a * b < 2 ^ 64 then some (a * b) else none

/-- `str::split_at`: it panics between the bytes of a character. -/
def splitAt : Nat → List Char → Option (List Char × List Char)
  | 0, text => some ([], text)
  | _ + 1, [] => none
  | n + 1, c :: text =>
    if c.utf8Size ≤ n + 1 then (splitAt (n + 1 - c.utf8Size) text).map fun p => (c :: p.1, p.2)
    else none

def byteLength (text : List Char) : Nat := (text.map Char.utf8Size).sum

def unitSeconds (count : Nat) (suffix : List Char) : Except ValidationError Nat :=
  if suffix = ['s'] then .ok count
  else if suffix = ['m'] then (checkedMul count 60).okOr durationOverflow
  else if suffix = ['h'] then (checkedMul count (60 * 60)).okOr durationOverflow
  else if suffix = ['d'] then (checkedMul count (24 * 60 * 60)).okOr durationOverflow
  else .error invalidDuration

def parseParts (number suffix : List Char) : Except ValidationError Nat := do
  let count ← (Digits.parse (2 ^ 64) number).okOr invalidDuration
  if count = 0 then .error durationZero
  else
    let seconds ← unitSeconds count suffix
    (checkedMul seconds 1000000).okOr durationOverflow

/-- `DurationMicros::from_str`; it has no result where it panics. -/
def fromStr (value : List Char) : Option (Except ValidationError Nat) :=
  if byteLength value < 2 then some (.error invalidDuration)
  else (splitAt (byteLength value - 1) value).map fun p => parseParts p.1 p.2

/-! ## What a duration is -/

def units : List (Char × Nat) := [('s', 1), ('m', 60), ('h', 3600), ('d', 86400)]

/-- The microseconds of a number of seconds are in the supported range. -/
def Spans (count seconds micros : Nat) : Prop :=
  micros = count * seconds * 1000000 ∧ 0 < micros ∧ micros < 2 ^ 64

def Denotes (value : List Char) (micros : Nat) : Prop :=
  ∃ digits unit seconds, value = digits ++ [unit] ∧ Digits.Plain digits ∧ (unit, seconds) ∈ units ∧
    Spans (Digits.value digits) seconds micros

/-- The parser returns the durations, and an error for every other text. -/
def Exact (value : List Char) : Prop :=
  (∀ micros, fromStr value = some (.ok micros) ↔ Denotes value micros) ∧ fromStr value ≠ none

/-! ## What is accepted -/

theorem splitAt_append (init : List Char) (c : Char) :
    splitAt (byteLength (init ++ [c]) - 1) (init ++ [c])
      = if c.utf8Size = 1 then some (init, [c]) else none := by
  have hpos := c.utf8Size_pos
  induction init with
  | nil =>
    unfold byteLength
    simp only [List.nil_append, List.map_cons, List.map_nil, List.sum_cons, List.sum_nil]
    split_ifs with h
    · rw [h]
      rfl
    · obtain ⟨n, hn⟩ : ∃ n, c.utf8Size + 0 - 1 = n + 1 := ⟨c.utf8Size - 2, by omega⟩
      rw [hn, splitAt, if_neg (by omega)]
  | cons d init ih =>
    have hd := d.utf8Size_pos
    have hlast : 1 ≤ byteLength (init ++ [c]) := by
      unfold byteLength
      simp only [List.map_append, List.sum_append, List.map_cons, List.map_nil, List.sum_cons]
      omega
    have hlength : byteLength (d :: init ++ [c]) = d.utf8Size + byteLength (init ++ [c]) := by
      simp [byteLength]
    obtain ⟨n, hn⟩ : ∃ n, byteLength (d :: init ++ [c]) - 1 = n + 1 :=
      ⟨byteLength (d :: init ++ [c]) - 2, by omega⟩
    have hrest : n + 1 - d.utf8Size = byteLength (init ++ [c]) - 1 := by omega
    rw [hn, List.cons_append, splitAt, if_pos (by omega), hrest, ih]
    split_ifs <;> rfl

theorem checkedMul_eq_some {a b n : Nat} : checkedMul a b = some n ↔ n = a * b ∧ n < 2 ^ 64 := by
  unfold checkedMul
  split_ifs with h
  · simp only [Option.some.injEq]
    exact ⟨fun heq => ⟨heq.symm, heq ▸ h⟩, fun heq => heq.1.symm⟩
  · simp only [false_iff]
    rintro ⟨rfl, hlt⟩
    exact h hlt

theorem unitSeconds_eq_ok {count n : Nat} (hcount : count < 2 ^ 64) {c : Char} :
    unitSeconds count [c] = .ok n ↔
      ∃ seconds, (c, seconds) ∈ units ∧ n = count * seconds ∧ n < 2 ^ 64 := by
  unfold unitSeconds units
  by_cases hs : c = 's'
  · subst hs
    simp
    omega
  by_cases hm : c = 'm'
  · simp [hm, Option.okOr_eq_ok, checkedMul_eq_some]
  by_cases hh : c = 'h'
  · simp [hh, Option.okOr_eq_ok, checkedMul_eq_some]
  by_cases hd : c = 'd'
  · simp [hd, Option.okOr_eq_ok, checkedMul_eq_some]
  · simp [hs, hm, hh, hd]

theorem unit_pos {c : Char} {seconds : Nat} (h : (c, seconds) ∈ units) : 0 < seconds := by
  revert h
  unfold units
  simp only [List.mem_cons, Prod.mk.injEq, List.not_mem_nil, or_false]
  omega

theorem parseParts_eq_ok {number : List Char} {c : Char} {micros : Nat} :
    parseParts number [c] = .ok micros ↔ ∃ count seconds,
      Digits.parse (2 ^ 64) number = some count ∧ (c, seconds) ∈ units ∧
      Spans count seconds micros := by
  unfold parseParts
  simp only [Except.bind_eq_ok, Option.okOr_eq_ok, Except.guard_eq_ok, checkedMul_eq_some]
  constructor
  · rintro ⟨count, hcount, hzero, _, hseconds, rfl, hmax⟩
    obtain ⟨-, -, -, -, hlt⟩ := Digits.parse_eq_some.mp hcount
    obtain ⟨unit, hunit, rfl, -⟩ := (unitSeconds_eq_ok hlt).mp hseconds
    have hpos := unit_pos hunit
    exact ⟨count, unit, hcount, hunit, rfl, by positivity, hmax⟩
  · rintro ⟨count, seconds, hcount, hunit, rfl, hpos, hmax⟩
    have hlt : count < 2 ^ 64 := (Digits.parse_eq_some.mp hcount).elim fun _ h => h.2.2.2
    have hne : count ≠ 0 := by
      rintro rfl
      simp at hpos
    exact ⟨count, hcount, hne, count * seconds,
      (unitSeconds_eq_ok hlt).mpr ⟨seconds, hunit, rfl, by omega⟩, rfl, hmax⟩

/-- Cutting the last byte off panics unless it is the last character. -/
theorem fromStr_append (init : List Char) (c : Char) :
    fromStr (init ++ [c]) = if c.utf8Size = 1 then some (parseParts init [c]) else none := by
  have hpos := c.utf8Size_pos
  unfold fromStr
  rw [splitAt_append]
  split_ifs with hshort hc
  · cases init with
    | nil => rfl
    | cons d init =>
      have hd := d.utf8Size_pos
      simp only [byteLength, List.cons_append, List.map_cons, List.map_append, List.sum_cons,
        List.sum_append, List.map_nil, List.sum_nil] at hshort
      omega
  · simp only [byteLength, List.map_append, List.sum_append, List.map_cons, List.map_nil,
      List.sum_cons, List.sum_nil] at hshort
    omega
  · rfl
  · rfl

theorem parse_of_denotes {digits number : List Char} {seconds micros : Nat} {unit : Char}
    (hnumber : number = digits ∨ number = '+' :: digits) (hplain : Digits.Plain digits)
    (hunit : (unit, seconds) ∈ units) (hspans : Spans (Digits.value digits) seconds micros) :
    parseParts number [unit] = .ok micros := by
  refine parseParts_eq_ok.mpr ⟨_, seconds, Digits.parse_eq_some.mpr ⟨digits, hnumber, hplain, rfl,
    ?_⟩, hunit, hspans⟩
  obtain ⟨rfl, -, hmax⟩ := hspans
  refine lt_of_le_of_lt ?_ hmax
  rw [mul_assoc]
  exact Nat.le_mul_of_pos_right _ (Nat.mul_pos (unit_pos hunit) (by decide))

/-- **What is accepted: durations, and durations after a plus sign.** -/
theorem parseParts_eq_ok_iff (init : List Char) (c : Char) (micros : Nat) :
    parseParts init [c] = .ok micros ↔ Denotes (init ++ [c]) micros ∨
      ∃ rest, init ++ [c] = '+' :: rest ∧ Denotes rest micros := by
  constructor
  · intro h
    obtain ⟨_, seconds, hcount, hunit, hspans⟩ := parseParts_eq_ok.mp h
    obtain ⟨digits, hinit, hplain, rfl, -⟩ := Digits.parse_eq_some.mp hcount
    rcases hinit with rfl | rfl
    · exact .inl ⟨_, c, seconds, rfl, hplain, hunit, hspans⟩
    · exact .inr ⟨digits ++ [c], rfl, digits, c, seconds, rfl, hplain, hunit, hspans⟩
  · rintro (⟨digits, unit, seconds, heq, hplain, hunit, hspans⟩ |
      ⟨_, heq, digits, unit, seconds, rfl, hplain, hunit, hspans⟩)
    · obtain ⟨rfl, hlast⟩ := List.append_inj' heq rfl
      cases hlast
      exact parse_of_denotes (.inl rfl) hplain hunit hspans
    · rw [← List.cons_append] at heq
      obtain ⟨rfl, hlast⟩ := List.append_inj' heq rfl
      cases hlast
      exact parse_of_denotes (.inr rfl) hplain hunit hspans

theorem not_denotes_plus (rest : List Char) (micros : Nat) : ¬ Denotes ('+' :: rest) micros := by
  rintro ⟨digits, unit, seconds, heq, hplain, -⟩
  cases digits with
  | nil => exact hplain.1 rfl
  | cons d digits =>
    obtain ⟨rfl, -⟩ := List.cons.inj heq
    exact Digits.not_plain_plus _ hplain

/-- **Where parsing is exact: the text ends in an ASCII character, and it is no duration after a
plus sign.** -/
theorem exact_iff (value : List Char) :
    Exact value ↔ (∀ c, value.getLast? = some c → c.utf8Size = 1) ∧
      ¬ ∃ rest micros, value = '+' :: rest ∧ Denotes rest micros := by
  rcases List.eq_nil_or_concat' value with rfl | ⟨init, c, rfl⟩
  · refine iff_of_true ⟨fun micros => ⟨fun h => ?_, ?_⟩, fun h => ?_⟩ ⟨by simp, by simp⟩
    · cases h
    · rintro ⟨digits, unit, _, heq, -⟩
      simp at heq
    · cases h
  unfold Exact
  rw [fromStr_append]
  by_cases hc : c.utf8Size = 1
  · simp only [hc, if_true, Option.some.injEq, parseParts_eq_ok_iff, List.getLast?_concat,
      forall_eq', true_and, reduceCtorEq, ne_eq, not_false_eq_true, and_true]
    constructor
    · rintro h ⟨rest, micros, heq, hrest⟩
      have hdenotes := (h micros).mp (.inr ⟨rest, heq, hrest⟩)
      rw [heq] at hdenotes
      exact not_denotes_plus rest micros hdenotes
    · intro h micros
      exact ⟨fun hor => hor.resolve_right fun ⟨rest, hrest⟩ => h ⟨rest, micros, hrest⟩, .inl⟩
  · simp [hc]

/-- A text that panics, and one that is accepted with its sign. -/
theorem inexact_texts :
    fromStr "1é".toList = none ∧ fromStr "+5s".toList = some (.ok 5000000) ∧
      ¬ Denotes "+5s".toList 5000000 :=
  ⟨by decide, by decide +kernel, not_denotes_plus _ _⟩

end Locron.Duration
