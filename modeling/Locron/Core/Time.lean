import Mathlib.Tactic

set_option autoImplicit false

/-! # Timestamps, durations and validation errors

A timestamp is a count of microseconds since the Unix epoch, kept by the program in an `i64`; a
duration is a `u64` count. They are modelled by `Int` and `Nat`, and the operations whose result
depends on the width (`saturating_sub`, `checked_add`, `i64::try_from`) are written out below.
-/

namespace Locron

/-- A field-level validation failure with a stable code and a message. -/
structure ValidationError where
  field : String
  code : String
  message : String
deriving DecidableEq, Repr

def i64Max : Int := 9223372036854775807

def i64Min : Int := -9223372036854775808

/-- The value fits an `i64`: what the type of a timestamp promises. -/
def InI64 (x : Int) : Prop := i64Min ≤ x ∧ x ≤ i64Max

instance (x : Int) : Decidable (InI64 x) := inferInstanceAs (Decidable (_ ∧ _))

/-- Clamp to `i64`: the result of a `saturating_*` operation on the exact value. -/
def saturate (x : Int) : Int := max i64Min (min i64Max x)

/-- The result of a `checked_*` operation on the exact value. -/
def checked (x : Int) : Option Int := if InI64 x then some x else none

/-- `i64::try_from` of an unsigned value. -/
def i64OfNat (n : Nat) : Option Int := if (n : Int) ≤ i64Max then some n else none

theorem i64OfNat_getD_nonneg (n : Nat) : 0 ≤ (i64OfNat n).getD i64Max := by
  unfold i64OfNat
  split
  · exact Int.natCast_nonneg n
  · decide

theorem saturate_eq_self {x : Int} (h : InI64 x) : saturate x = x := by
  unfold saturate
  obtain ⟨h1, h2⟩ := h
  omega

theorem saturate_le_iff {x y : Int} (hy : i64Min ≤ y) (hy' : y < i64Max) :
    saturate x ≤ y ↔ x ≤ y := by
  unfold saturate
  omega

theorem saturate_le_max (x : Int) : saturate x ≤ i64Max := by
  unfold saturate i64Min i64Max
  omega

theorem min_le_saturate (x : Int) : i64Min ≤ saturate x := by
  unfold saturate
  omega

theorem checked_eq_some {x : Int} (h : InI64 x) : checked x = some x := if_pos h

theorem checked_eq_some_iff {x y : Int} : checked x = some y ↔ InI64 x ∧ y = x := by
  unfold checked
  split
  · next h => simp [h, eq_comm]
  · next h => simp [h]

end Locron
