import Mathlib.Data.List.Sort
import Mathlib.Data.List.Nodup
import Mathlib.Tactic

set_option autoImplicit false

/-! # Row numbers

A window function numbers the rows of a selection in a given order. When the keys that it orders by
are distinct, the number of a row says how many rows stand before it, and a bound on the number is
the same as being among the first rows.
-/

namespace Ranked

variable {α κ : Type} [LinearOrder κ] (key : α → κ)

/-- The rows with the greatest keys first. -/
def descending (rows : List α) : List α := rows.insertionSort (fun a b => key b ≤ key a)

/-- The number of a row in descending order, from one: `row_number()`. -/
def rowNumber [DecidableEq α] (rows : List α) (row : α) : Nat := (descending key rows).idxOf row + 1

theorem perm_descending (rows : List α) : (descending key rows).Perm rows :=
  List.perm_insertionSort _ rows

variable {key} {rows : List α} {row : α}

@[simp] theorem mem_descending : row ∈ descending key rows ↔ row ∈ rows :=
  (perm_descending key rows).mem_iff

/-- With distinct keys the order is strict. -/
theorem pairwise_descending (hnodup : (rows.map key).Nodup) :
    (descending key rows).Pairwise (fun a b => key b < key a) := by
  have hsorted : (descending key rows).Pairwise (fun a b => key b ≤ key a) := by
    have htotal : Std.Total (fun a b : α => key b ≤ key a) := ⟨fun a b => le_total (key b) (key a)⟩
    have htrans : IsTrans α (fun a b => key b ≤ key a) := ⟨fun _ _ _ hab hbc => hbc.trans hab⟩
    exact List.pairwise_insertionSort _ rows
  have hdistinct : (descending key rows).Pairwise (fun a b => key a ≠ key b) := by
    have h := ((perm_descending key rows).map key).nodup_iff.mpr hnodup
    rwa [List.Nodup, List.pairwise_map] at h
  exact (hsorted.and hdistinct).imp (fun h => lt_of_le_of_ne h.1 (Ne.symm h.2))

variable [DecidableEq α]

/-- **The place of a row** is the number of rows with a greater key. -/
theorem idxOf_descending (hnodup : (rows.map key).Nodup) (hmem : row ∈ rows) :
    (descending key rows).idxOf row = rows.countP (fun other => key row < key other) := by
  have hlisted : row ∈ descending key rows := mem_descending.mpr hmem
  obtain ⟨before, after, hsplit, hfirst⟩ := List.eq_append_cons_of_mem hlisted
  have hpairwise := pairwise_descending hnodup
  rw [hsplit, List.pairwise_append, List.pairwise_cons] at hpairwise
  obtain ⟨-, ⟨hafter, -⟩, hbefore⟩ := hpairwise
  have hgreater : before.countP (fun other => key row < key other) = before.length :=
    List.countP_eq_length.mpr (fun other hother =>
      decide_eq_true (hbefore other hother row List.mem_cons_self))
  have hsmaller : (row :: after).countP (fun other => key row < key other) = 0 := by
    refine List.countP_eq_zero.mpr (fun other hother => ?_)
    rcases List.mem_cons.mp hother with rfl | hother
    · simp
    · simpa using (hafter other hother).le
  calc (descending key rows).idxOf row
      = (before ++ row :: after).idxOf row := by rw [hsplit]
    _ = before.length := by
        rw [List.idxOf_append_of_notMem hfirst, List.idxOf_cons_self, Nat.add_zero]
    _ = (before ++ row :: after).countP (fun other => key row < key other) := by
        rw [List.countP_append, hgreater, hsmaller, Nat.add_zero]
    _ = rows.countP (fun other => key row < key other) := by
        rw [← hsplit, (perm_descending key rows).countP_eq]

theorem rowNumber_eq (hnodup : (rows.map key).Nodup) (hmem : row ∈ rows) :
    rowNumber key rows row = rows.countP (fun other => key row < key other) + 1 :=
  congrArg (· + 1) (idxOf_descending hnodup hmem)

/-- Among the first rows stand those with fewer rows of a greater key. -/
theorem mem_take_descending (hnodup : (rows.map key).Nodup) (hmem : row ∈ rows) {n : Nat} :
    row ∈ (descending key rows).take n ↔
      rows.countP (fun other => key row < key other) < n := by
  rw [← idxOf_descending hnodup hmem, List.mem_take_iff_idxOf_lt (mem_descending.mpr hmem)]

end Ranked
