import Locron.Lib.Blocks
import Locron.Lib.Increasing
import Locron.Schedule.Interval

set_option autoImplicit false

/-! # Interval arithmetic is exact up to saturation

Index arithmetic on an interval schedule agrees with the list of its occurrences whose distance from
the anchor fits an `i64` (`intervalRangeStats_eq`, `intervalNewest_eq`); no operation overflows.
-/

namespace Locron

/-- What validation and the width of the step promise about an interval. -/
structure ValidInterval (interval : Nat) : Prop where
  le_max : (interval : Int) ≤ i64Max
  whole_seconds : 1000000 ≤ interval ∧ interval % 1000000 = 0

def firstIndex (interval : Nat) (anchor after : Int) : Int :=
  max 0 (saturate (after - anchor) / interval + 1)

def lastIndex (interval : Nat) (anchor through : Int) : Int :=
  saturate (through - anchor) / interval

/-- The occurrences in `(after, through]` that the index arithmetic reaches. -/
def intervalList (interval : Nat) (anchor after through : Int) : List Int :=
  (Int.range (firstIndex interval anchor after) (lastIndex interval anchor through + 1)).map
    (fun index => anchor + index * interval)

section Valid

variable {interval : Nat} (hv : ValidInterval interval) {anchor after through : Int}

include hv

theorem index_bounds (x : Int) :
    -9223372036855 ≤ saturate x / interval ∧ saturate x / interval ≤ 9223372036854 := by
  have hlo := min_le_saturate x
  have hhi := saturate_le_max x
  have hstep : (1000000 : Int) ≤ interval := by exact_mod_cast hv.whole_seconds.1
  unfold i64Min at hlo
  unfold i64Max at hhi
  constructor
  · rw [Int.le_ediv_iff_mul_le (by omega)]
    nlinarith
  · rw [← Int.lt_add_one_iff, Int.ediv_lt_iff_lt_mul (by omega)]
    nlinarith

theorem intervalBounds_eq :
    intervalBounds interval anchor after through
      = .ok (if firstIndex interval anchor after ≤ lastIndex interval anchor through then
          some ((interval : Int), firstIndex interval anchor after,
            lastIndex interval anchor through)
        else none) := by
  obtain ⟨hmax, hge, hmod⟩ := hv
  have hbounds := index_bounds ⟨hmax, hge, hmod⟩ (after - anchor)
  have hsat : saturate (saturate (after - anchor) / interval + 1)
      = saturate (after - anchor) / interval + 1 := by
    apply saturate_eq_self
    unfold InI64 i64Min i64Max
    omega
  unfold intervalBounds i64OfNat
  rw [if_pos hmax]
  simp only
  rw [if_neg (by omega), hsat]
  rfl

/-- An index in range stays inside `i64`. -/
theorem intervalAt_eq {index : Int} (h0 : 0 ≤ index)
    (hlast : index ≤ lastIndex interval anchor through) (ha : InI64 anchor) (ht : InI64 through) :
    intervalAt anchor interval index = .ok (anchor + index * interval) := by
  have hstep : (0 : Int) < interval := by
    have := hv.whole_seconds.1
    omega
  have hmul : index * interval ≤ saturate (through - anchor) := by
    rw [← Int.le_ediv_iff_mul_le hstep]
    exact hlast
  have hnn : 0 ≤ index * interval := Int.mul_nonneg h0 hstep.le
  have hle : saturate (through - anchor) ≤ i64Max := saturate_le_max _
  rcases ha with ⟨ha1, ha2⟩
  rcases ht with ⟨ht1, ht2⟩
  have hprod : InI64 (index * interval) := by
    unfold InI64 i64Min
    omega
  have hsum : InI64 (anchor + index * interval) := by
    have hle' : saturate (through - anchor) ≤ max i64Min (through - anchor) := by
      unfold saturate
      omega
    unfold InI64
    unfold i64Min i64Max at *
    omega
  unfold intervalAt
  rw [checked_eq_some hprod, Option.bind_some, checked_eq_some hsum]

theorem intervalAll_eq (ha : InI64 anchor) (ht : InI64 through) (indexes : List Int)
    (h : ∀ index ∈ indexes, 0 ≤ index ∧ index ≤ lastIndex interval anchor through) :
    intervalAll anchor interval indexes
      = .ok (indexes.map (fun index => anchor + index * interval)) := by
  induction indexes with
  | nil => rfl
  | cons index rest ih =>
    obtain ⟨h0, hlast⟩ := h index (by simp)
    unfold intervalAll
    rw [intervalAt_eq hv h0 hlast ha ht, ih (fun i hi => h i (by simp [hi]))]
    rfl

/-- **The statistics of the reachable occurrences.** -/
theorem intervalRangeStats_eq (ha : InI64 anchor) (ht : InI64 through) :
    intervalRangeStats interval anchor after through
      = .ok (OccurrenceStats.ofList (intervalList interval anchor after through)) := by
  unfold intervalRangeStats
  rw [intervalBounds_eq hv]
  by_cases hle : firstIndex interval anchor after ≤ lastIndex interval anchor through
  · rw [if_pos hle]
    have h0 : 0 ≤ firstIndex interval anchor after := le_max_left _ _
    have hbounds := index_bounds hv (through - anchor)
    simp only [intervalAt_eq hv h0 hle ha ht,
      intervalAt_eq hv (le_trans h0 hle) (le_refl _) ha ht]
    have hcount : saturate (saturate (lastIndex interval anchor through
          - firstIndex interval anchor after) + 1)
        = lastIndex interval anchor through - firstIndex interval anchor after + 1 := by
      have hdiff : InI64 (lastIndex interval anchor through
          - firstIndex interval anchor after) := by
        unfold lastIndex InI64 i64Min i64Max at *
        omega
      rw [saturate_eq_self hdiff]
      apply saturate_eq_self
      unfold lastIndex InI64 i64Min i64Max at *
      omega
    rw [hcount]
    have hlist : intervalList interval anchor after through
        = (Int.range (firstIndex interval anchor after) (lastIndex interval anchor through)).map
            (fun index => anchor + index * interval)
          ++ [anchor + lastIndex interval anchor through * interval] := by
      unfold intervalList
      rw [Blocks.range_succ hle, List.map_append]
      rfl
    have hhead : (intervalList interval anchor after through).head?
        = some (anchor + firstIndex interval anchor after * interval) := by
      unfold intervalList Int.range
      rw [List.map_map, List.head?_map, List.head?_range]
      rw [if_neg (by omega)]
      simp
    have hlen : (intervalList interval anchor after through).length
        = (lastIndex interval anchor through - firstIndex interval anchor after + 1).toNat := by
      unfold intervalList Int.range
      rw [List.length_map, List.length_map, List.length_range]
      congr 1
      omega
    unfold OccurrenceStats.ofList
    rw [hhead, hlen, hlist, List.getLast?_append]
    rfl
  · rw [if_neg hle]
    unfold intervalList
    rw [Blocks.range_of_le (by omega)]
    rfl

/-- **The newest of the reachable occurrences.** -/
theorem intervalNewest_eq (ha : InI64 anchor) (ht : InI64 through) {limit : Nat}
    (hlimit : 0 < limit) :
    intervalNewest interval anchor after through limit
      = .ok ((intervalList interval anchor after through).rtake limit) := by
  unfold intervalNewest
  rw [intervalBounds_eq hv]
  by_cases hle : firstIndex interval anchor after ≤ lastIndex interval anchor through
  · rw [if_pos hle]
    have h0 : 0 ≤ firstIndex interval anchor after := le_max_left _ _
    have hbounds := index_bounds hv (through - anchor)
    have hfirst : max (firstIndex interval anchor after)
          (saturate (lastIndex interval anchor through
            - saturate ((i64OfNat limit).getD i64Max - 1)))
        = max (firstIndex interval anchor after)
            (lastIndex interval anchor through + 1 - limit) := by
      unfold i64OfNat
      by_cases hmax : (limit : Int) ≤ i64Max
      · rw [if_pos hmax, Option.getD_some]
        unfold lastIndex saturate i64Min i64Max at *
        omega
      rw [if_neg hmax, Option.getD_none]
      unfold lastIndex saturate i64Min i64Max at *
      omega
    simp only
    rw [hfirst, intervalAll_eq hv ha ht]
    · unfold intervalList
      rw [List.rtake_eq_reverse_take_reverse, ← List.map_reverse, ← List.map_take,
        ← List.map_reverse, ← List.rtake_eq_reverse_take_reverse, Blocks.rtake_range]
    · intro index hindex
      have := Int.mem_range_iff.mp hindex
      omega
  · rw [if_neg hle]
    unfold intervalList
    rw [Blocks.range_of_le (by omega)]
    simp

omit hv in
theorem sortedLT_intervalList (hpos : 0 < interval) :
    (intervalList interval anchor after through).SortedLT := by
  unfold intervalList
  rw [List.sortedLT_iff_pairwise, List.pairwise_map]
  apply (List.sortedLT_iff_pairwise.mp (Blocks.sortedLT_range _ _)).imp
  intro i j hij
  have : (0 : Int) < interval := by exact_mod_cast hpos
  nlinarith

theorem firstIndex_le_iff {k : Int} (hk : 0 ≤ k) :
    firstIndex interval anchor after ≤ k ↔ saturate (after - anchor) < k * interval := by
  have hstep : (0 : Int) < interval := by
    have := hv.whole_seconds.1
    omega
  rw [← Int.ediv_lt_iff_lt_mul hstep]
  unfold firstIndex
  omega

/-- **The reachable occurrences** are those at most `i64::MAX` microseconds after the anchor. -/
theorem mem_intervalList {t : Int} :
    t ∈ intervalList interval anchor after through ↔
      after < t ∧ t ≤ through ∧
        ∃ k : Nat, t = anchor + k * interval ∧ (k * interval : Int) ≤ i64Max := by
  have hstep : (0 : Int) < interval := by
    have := hv.whole_seconds.1
    omega
  have hlast : ∀ k : Int, k < lastIndex interval anchor through + 1 ↔
      k * interval ≤ saturate (through - anchor) := by
    intro k
    rw [← Int.le_ediv_iff_mul_le hstep]
    unfold lastIndex
    omega
  have h0 : 0 ≤ firstIndex interval anchor after := le_max_left _ _
  unfold intervalList
  simp only [List.mem_map, Int.mem_range_iff]
  constructor
  · rintro ⟨k, ⟨hk1, hk2⟩, rfl⟩
    have hk0 : 0 ≤ k := le_trans h0 hk1
    rw [firstIndex_le_iff hv hk0] at hk1
    rw [hlast] at hk2
    have hnn : 0 ≤ k * interval := Int.mul_nonneg hk0 hstep.le
    obtain ⟨n, rfl⟩ := Int.eq_ofNat_of_zero_le hk0
    refine ⟨?_, ?_, n, rfl, ?_⟩
    · unfold saturate i64Min i64Max at *
      omega
    · unfold saturate i64Min i64Max at *
      omega
    · exact le_trans hk2 (saturate_le_max _)
  · rintro ⟨h1, h2, k, rfl, hk⟩
    have hnn : 0 ≤ (k : Int) * interval := Int.mul_nonneg (by omega) hstep.le
    refine ⟨k, ⟨?_, ?_⟩, rfl⟩
    · rw [firstIndex_le_iff hv (by omega)]
      unfold saturate i64Min i64Max at *
      omega
    · rw [hlast]
      unfold saturate i64Min i64Max at *
      omega

end Valid

end Locron
