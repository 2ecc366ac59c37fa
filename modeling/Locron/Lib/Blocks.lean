import Mathlib.Data.Int.Range
import Mathlib.Data.List.DropRight
import Mathlib.Data.List.Sort
import Mathlib.Tactic

set_option autoImplicit false

/-! # Enumerations in blocks

A list enumerated block by block along an interval of integers: `enum f lo hi` is the
concatenation of the blocks `f lo, …, f (hi - 1)`. Walking the interval from either end, and
skipping integers with empty blocks, produces the list from its front or from its back; when the
blocks are sorted and follow one another in order, so is the whole.
-/

namespace Blocks

variable {α : Type}

/-! ## Intervals -/

variable {lo hi : Int}

theorem range_of_le (h : hi ≤ lo) : Int.range lo hi = [] := by
  simp [Int.range, Int.toNat_of_nonpos (by omega : hi - lo ≤ 0)]

theorem range_succ (h : lo ≤ hi) :
    Int.range lo (hi + 1) = Int.range lo hi ++ [hi] := by
  unfold Int.range
  rw [show (hi + 1 - lo).toNat = (hi - lo).toNat + 1 by omega, List.range_succ, List.map_append]
  simp only [List.map_cons, List.map_nil]
  rw [show lo + ((hi - lo).toNat : Int) = hi by omega]

variable {mid : Int}

theorem range_append (h : lo ≤ mid) (h' : mid ≤ hi) :
    Int.range lo hi = Int.range lo mid ++ Int.range mid hi := by
  induction hi, h' using Int.leInduction with
  | base => rw [range_of_le (le_refl mid), List.append_nil]
  | succ hi hmid ih =>
    rw [range_succ (le_trans h hmid), range_succ hmid, ih, List.append_assoc]

theorem length_range (lo hi : Int) : (Int.range lo hi).length = (hi - lo).toNat := by
  simp [Int.range]

/-- The last integers of an interval. -/
theorem rtake_range (lo hi : Int) (n : Nat) :
    (Int.range lo hi).rtake n = Int.range (max lo (hi - n)) hi := by
  by_cases h : lo ≤ hi
  · unfold List.rtake
    rw [length_range]
    have hlo : lo ≤ max lo (hi - n) := le_max_left _ _
    have hhi : max lo (hi - n) ≤ hi := by omega
    rw [range_append hlo hhi, List.drop_append_of_le_length (by rw [length_range]; omega),
      List.drop_eq_nil_of_le (by rw [length_range]; omega), List.nil_append]
  · rw [range_of_le (by omega), range_of_le (by omega), List.rtake_nil]

theorem sortedLT_range (lo hi : Int) : (Int.range lo hi).SortedLT := by
  unfold Int.range
  rw [List.sortedLT_iff_pairwise, List.pairwise_map]
  exact List.pairwise_lt_range.imp (by intro a b h; omega)

/-! ## Blocks -/

/-- The blocks of `lo, …, hi - 1`, concatenated. -/
def enum (f : Int → List α) (lo hi : Int) : List α := (Int.range lo hi).flatMap f

variable {f : Int → List α}

theorem mem_enum {a : α} : a ∈ enum f lo hi ↔ ∃ d, lo ≤ d ∧ d < hi ∧ a ∈ f d := by
  unfold enum
  rw [List.mem_flatMap]
  simp only [Int.mem_range_iff, and_assoc]

theorem enum_of_le (h : hi ≤ lo) : enum f lo hi = [] := by
  rw [enum, range_of_le h, List.flatMap_nil]

theorem enum_succ (h : lo ≤ hi) : enum f lo (hi + 1) = enum f lo hi ++ f hi := by
  rw [enum, range_succ h, List.flatMap_append, List.flatMap_singleton, enum]

/-- An enumeration can be cut anywhere. -/
theorem enum_append (h : lo ≤ mid) (h' : mid ≤ hi) :
    enum f lo hi = enum f lo mid ++ enum f mid hi := by
  rw [enum, range_append h h', List.flatMap_append, enum, enum]

theorem enum_cons (h : lo < hi) : enum f lo hi = f lo ++ enum f (lo + 1) hi := by
  rw [enum_append (by omega : lo ≤ lo + 1) (by omega), enum_succ (le_refl lo),
    enum_of_le (le_refl lo), List.nil_append]

/-- Integers with empty blocks can be skipped. -/
theorem enum_eq_nil (h : ∀ d, lo ≤ d → d < hi → f d = []) : enum f lo hi = [] := by
  rw [List.eq_nil_iff_forall_not_mem]
  intro a ha
  obtain ⟨d, hlo, hhi, hd⟩ := mem_enum.mp ha
  rw [h d hlo hhi] at hd
  exact absurd hd List.not_mem_nil

theorem enum_skip_right (h : mid ≤ hi) (hnil : ∀ d, mid ≤ d → d < hi → f d = []) :
    enum f lo hi = enum f lo mid := by
  by_cases hlo : lo ≤ mid
  · rw [enum_append hlo h, enum_eq_nil hnil, List.append_nil]
  rw [enum_of_le (by omega : mid ≤ lo)]
  apply enum_eq_nil
  intro d h1 h2
  exact hnil d (by omega) h2

theorem enum_skip_left (h : lo ≤ mid) (hnil : ∀ d, lo ≤ d → d < mid → f d = []) :
    enum f lo hi = enum f mid hi := by
  by_cases hhi : mid ≤ hi
  · rw [enum_append h hhi, enum_eq_nil hnil, List.nil_append]
  rw [enum_of_le (by omega : hi ≤ mid)]
  apply enum_eq_nil
  intro d h1 h2
  exact hnil d h1 (by omega)

/-- Sorted blocks that follow one another make a sorted list. -/
theorem sortedLT_enum [LinearOrder α] (hblock : ∀ d, (f d).SortedLT)
    (hnext : ∀ d d', lo ≤ d → d < d' → d' < hi → ∀ a ∈ f d, ∀ b ∈ f d', a < b) :
    (enum f lo hi).SortedLT := by
  rw [List.sortedLT_iff_pairwise]
  unfold enum
  rw [List.pairwise_flatMap]
  constructor
  · intro d _
    exact List.sortedLT_iff_pairwise.mp (hblock d)
  · apply (List.sortedLT_iff_pairwise.mp (sortedLT_range lo hi)).imp_of_mem
    intro d d' hd hd' hlt a ha b hb
    exact hnext d d' (Int.mem_range_iff.mp hd).1 hlt (Int.mem_range_iff.mp hd').2 a ha b hb

theorem length_enum (lo hi : Int) :
    (enum f lo hi).length = ∑ d ∈ Finset.Ico lo hi, (f d).length := by
  by_cases h : lo ≤ hi
  · induction hi, h using Int.leInduction with
    | base => simp [enum_of_le (le_refl lo)]
    | succ hi hle ih =>
      rw [enum_succ hle, List.length_append, ih]
      rw [show Finset.Ico lo (hi + 1) = insert hi (Finset.Ico lo hi) by
        ext d; simp only [Finset.mem_Ico, Finset.mem_insert]; omega]
      rw [Finset.sum_insert (by simp)]
      omega
  · rw [enum_of_le (by omega), Finset.Ico_eq_empty_of_le (by omega)]
    rfl

end Blocks
