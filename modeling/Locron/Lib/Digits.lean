import Locron.Lib.Text

set_option autoImplicit false

/-! # Unsigned numbers in texts

The standard parser of unsigned numbers: decimal digits of a number below a bound, after an optional
plus sign.
-/

namespace Digits

/-- The number with the given decimal digits. -/
def value (digits : List Char) : Nat := digits.foldl (fun n c => 10 * n + (c.toNat - 48)) 0

/-- Decimal digits, at least one. -/
def Plain (text : List Char) : Prop := text ≠ [] ∧ ∀ c ∈ text, c.isDigit = true

instance (text : List Char) : Decidable (Plain text) := inferInstanceAs (Decidable (_ ∧ _))

/-- The text without a plus sign in front. -/
def unsigned : List Char → List Char
  | '+' :: digits => digits
  | text => text

def parse (bound : Nat) (text : List Char) : Option Nat :=
  if Plain (unsigned text) ∧ value (unsigned text) < bound then some (value (unsigned text))
  else none

theorem not_plain_plus (text : List Char) : ¬ Plain ('+' :: text) :=
  fun h => absurd (h.2 '+' List.mem_cons_self) (by decide)

/-- **What is parsed: plain digits, or plain digits after a plus sign.** -/
theorem parse_eq_some {bound n : Nat} {text : List Char} :
    parse bound text = some n ↔ ∃ digits, (text = digits ∨ text = '+' :: digits) ∧ Plain digits ∧
      value digits = n ∧ n < bound := by
  have hparse : parse bound text = some n ↔
      Plain (unsigned text) ∧ value (unsigned text) = n ∧ n < bound := by
    unfold parse
    split_ifs with h
    · simp only [Option.some.injEq, h.1, true_and]
      exact ⟨fun heq => ⟨heq, heq ▸ h.2⟩, And.left⟩
    · simp only [false_iff]
      rintro ⟨hplain, rfl, hlt⟩
      exact h ⟨hplain, hlt⟩
  rw [hparse]
  constructor
  · intro h
    refine ⟨unsigned text, ?_, h⟩
    unfold unsigned
    split <;> simp
  · rintro ⟨digits, htext, hplain, h⟩
    have hdigits : unsigned text = digits := by
      rcases htext with rfl | rfl
      · unfold unsigned
        split
        · exact absurd hplain (not_plain_plus _)
        · rfl
      · rfl
    rw [hdigits]
    exact ⟨hplain, h⟩

end Digits
