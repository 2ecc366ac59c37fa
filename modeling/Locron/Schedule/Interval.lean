import Locron.Core.Time
import Mathlib.Data.Int.Range

set_option autoImplicit false

/-! # Fixed intervals

The occurrences of an interval schedule are `anchor + k * step` for `k ≥ 0`. Ranges of them are
computed from the indexes of the first and the last, in `i64` arithmetic: the distance of an instant
from the anchor saturates.
-/

namespace Locron

/-- The number of occurrences in a range, the first and the last of them. -/
structure OccurrenceStats where
  count : Nat
  first : Option Int
  last : Option Int
deriving DecidableEq, Repr

namespace OccurrenceStats

def default : OccurrenceStats := ⟨0, none, none⟩

def one (at_ : Int) : OccurrenceStats := ⟨1, some at_, some at_⟩

def ofList (l : List Int) : OccurrenceStats := ⟨l.length, l.head?, l.getLast?⟩

end OccurrenceStats

def everyError (code message : String) : ValidationError := ⟨"every", code, message⟩

def durationOverflow : ValidationError := everyError "duration_overflow" "interval is too large"

def wholeSecondsRequired : ValidationError :=
  everyError "whole_seconds_required" "interval must be a positive whole number of seconds"

/-- `current`, `current + step`, …: `count` instants, and one more that must still fit. -/
def intervalWalk (step : Int) : Nat → Int → Except ValidationError (List Int)
  | 0, _ => .ok []
  | count + 1, current =>
    match checked (current + step) with
    | none => .error (everyError "time_overflow" "next occurrence overflows")
    | some next =>
      match intervalWalk step count next with
      | .error e => .error e
      | .ok rest => .ok (current :: rest)

def intervalOccurrences (interval : Nat) (anchor after : Int) (count : Nat) :
    Except ValidationError (List Int) :=
  if interval < 1000000 ∨ interval % 1000000 ≠ 0 then .error wholeSecondsRequired
  else if count = 0 then .ok []
  else
    match i64OfNat interval with
    | none => .error durationOverflow
    | some step =>
      let delta := saturate (after - anchor)
      let multiple := if delta < 0 then 0 else saturate (delta / step + 1)
      match (checked (multiple * step)).bind (fun product => checked (anchor + product)) with
      | none => .error (everyError "time_overflow" "next occurrence overflows")
      | some current => intervalWalk step count current

/-- Step, first and last index of the occurrences in `(after, through]`. -/
def intervalBounds (interval : Nat) (anchor after through : Int) :
    Except ValidationError (Option (Int × Int × Int)) :=
  match i64OfNat interval with
  | none => .error durationOverflow
  | some step =>
    if step < 1000000 ∨ step % 1000000 ≠ 0 then .error wholeSecondsRequired
    else
      let first := max 0 (saturate (saturate (after - anchor) / step + 1))
      let last := saturate (through - anchor) / step
      .ok (if first ≤ last then some (step, first, last) else none)

def intervalAt (anchor step index : Int) : Except ValidationError Int :=
  match (checked (index * step)).bind (fun product => checked (anchor + product)) with
  | none => .error (everyError "time_overflow" "occurrence time overflows")
  | some t => .ok t

def intervalRangeStats (interval : Nat) (anchor after through : Int) :
    Except ValidationError OccurrenceStats :=
  match intervalBounds interval anchor after through with
  | .error e => .error e
  | .ok none => .ok OccurrenceStats.default
  | .ok (some (step, first, last)) =>
    match intervalAt anchor step first, intervalAt anchor step last with
    | .error e, _ => .error e
    | _, .error e => .error e
    | .ok firstAt, .ok lastAt =>
      .ok ⟨(saturate (saturate (last - first) + 1)).toNat, some firstAt, some lastAt⟩

def intervalAll (anchor step : Int) : List Int → Except ValidationError (List Int)
  | [] => .ok []
  | index :: rest =>
    match intervalAt anchor step index with
    | .error e => .error e
    | .ok t =>
      match intervalAll anchor step rest with
      | .error e => .error e
      | .ok ts => .ok (t :: ts)

def intervalNewest (interval : Nat) (anchor after through : Int) (limit : Nat) :
    Except ValidationError (List Int) :=
  match intervalBounds interval anchor after through with
  | .error e => .error e
  | .ok none => .ok []
  | .ok (some (step, first, last)) =>
    let retain := (i64OfNat limit).getD i64Max
    let boundedFirst := max first (saturate (last - saturate (retain - 1)))
    intervalAll anchor step (Int.range boundedFirst (last + 1))

end Locron
