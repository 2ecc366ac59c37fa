import Mathlib.Data.List.DropRight
import Mathlib.Data.List.Sort
import Mathlib.Tactic

set_option autoImplicit false

/-! # Cutting strictly increasing lists

Filters of a strictly increasing list by a bound are its prefixes and suffixes, and windows
`(x, y]` of it can be cut and joined. The last `n` elements are `List.rtake n`.
-/

namespace Increasing

variable {l xs ys : List Int}

/-- The elements in `(x, y]`. -/
def window (l : List Int) (x y : Int) : List Int := l.filter (fun t => x < t ∧ t ≤ y)

theorem mem_window {x y t : Int} : t ∈ window l x y ↔ t ∈ l ∧ x < t ∧ t ≤ y := by
  simp [window]

theorem sortedLT_filter (h : l.SortedLT) (p : Int → Bool) : (l.filter p).SortedLT := by
  rw [List.sortedLT_iff_pairwise] at h ⊢
  exact h.filter p

theorem sortedLT_window (h : l.SortedLT) (x y : Int) : (window l x y).SortedLT :=
  sortedLT_filter h _

theorem sortedLT_append (h : (xs ++ ys).SortedLT) :
    xs.SortedLT ∧ ys.SortedLT ∧ ∀ x ∈ xs, ∀ y ∈ ys, x < y := by
  rw [List.sortedLT_iff_pairwise, List.pairwise_append] at h
  exact ⟨List.sortedLT_iff_pairwise.mpr h.1, List.sortedLT_iff_pairwise.mpr h.2.1, h.2.2⟩

theorem sortedLT_append_of (hx : xs.SortedLT) (hy : ys.SortedLT)
    (h : ∀ x ∈ xs, ∀ y ∈ ys, x < y) : (xs ++ ys).SortedLT := by
  rw [List.sortedLT_iff_pairwise] at hx hy ⊢
  exact List.pairwise_append.mpr ⟨hx, hy, h⟩

/-- Adjacent windows join. -/
theorem window_append (h : l.SortedLT) {x y z : Int} (hxy : x ≤ y) (hyz : y ≤ z) :
    window l x z = window l x y ++ window l y z := by
  apply (sortedLT_window h x z).eq_of_mem_iff
  · apply sortedLT_append_of (sortedLT_window h x y) (sortedLT_window h y z)
    intro s hs t ht
    have := (mem_window.mp hs).2
    have := (mem_window.mp ht).2
    omega
  · intro t
    rw [List.mem_append, mem_window, mem_window, mem_window]
    constructor
    · rintro ⟨hl, h1, h2⟩
      by_cases hty : t ≤ y
      · exact Or.inl ⟨hl, h1, hty⟩
      · exact Or.inr ⟨hl, by omega, h2⟩
    · rintro (⟨hl, h1, h2⟩ | ⟨hl, h1, h2⟩)
      · exact ⟨hl, h1, by omega⟩
      · exact ⟨hl, by omega, h2⟩

/-- The whole list is a window around it. -/
theorem window_eq_self {x y : Int} (h : ∀ t ∈ l, x < t ∧ t ≤ y) : window l x y = l := by
  unfold window
  rw [List.filter_eq_self]
  intro t ht
  simpa using h t ht

theorem window_of_le {x y : Int} (h : y ≤ x) : window l x y = [] := by
  rw [List.eq_nil_iff_forall_not_mem]
  intro t ht
  have := (mem_window.mp ht).2
  omega

/-- The window up to just before an element of the list is what stands before it. -/
theorem window_before {y : Int} (h : (xs ++ y :: ys).SortedLT) {x : Int}
    (hx : ∀ t ∈ xs, x < t) : window (xs ++ y :: ys) x (y - 1) = xs := by
  obtain ⟨hxs, hys, hlt⟩ := sortedLT_append h
  apply (sortedLT_window h x (y - 1)).eq_of_mem_iff hxs
  intro t
  rw [mem_window, List.mem_append]
  constructor
  · rintro ⟨hmem | hmem, h1, h2⟩
    · exact hmem
    rcases List.mem_cons.mp hmem with rfl | hmem
    · omega
    rw [List.sortedLT_iff_pairwise] at hys
    have := (List.pairwise_cons.mp hys).1 t hmem
    omega
  · intro ht
    have := hlt t ht y (by simp)
    exact ⟨Or.inl ht, hx t ht, by omega⟩

theorem window_window {x y u v : Int} (hxu : x ≤ u) (hvy : v ≤ y) :
    window (window l x y) u v = window l u v := by
  unfold window
  rw [List.filter_filter]
  apply List.filter_congr
  intro t _
  rw [← Bool.decide_and, decide_eq_decide]
  omega

theorem getLast?_eq_some {t : Int} (h : l.SortedLT) (ht : t ∈ l) (hle : ∀ u ∈ l, u ≤ t) :
    l.getLast? = some t := by
  rcases List.eq_nil_or_concat l with rfl | ⟨init, x, rfl⟩
  · cases ht
  have hx := hle x (by simp)
  rcases List.mem_append.mp (List.concat_eq_append ▸ ht) with hinit | hlast
  · have := (sortedLT_append (List.concat_eq_append ▸ h)).2.2 t hinit x (by simp)
    omega
  · rw [List.mem_singleton.mp hlast]
    simp

theorem head?_rtake_one (l : List Int) : (l.rtake 1).head? = l.getLast? := by
  unfold List.rtake
  rw [List.head?_drop, List.getLast?_eq_getElem?]

theorem take_append_rtake (l : List Int) (n : Nat) : l.take (l.length - n) ++ l.rtake n = l :=
  List.take_append_drop _ _

theorem length_rtake (l : List Int) (n : Nat) : (l.rtake n).length = min n l.length := by
  unfold List.rtake
  rw [List.length_drop]
  omega

theorem rtake_rtake (l : List Int) (m n : Nat) : (l.rtake n).rtake m = l.rtake (min m n) := by
  simp only [List.rtake_eq_reverse_take_reverse, List.reverse_reverse, List.take_take]

/-! ## The first elements of a set -/

/-- `l` lists the first `n` elements of the set that are greater than `x`, or all of them if there
are fewer. -/
structure FirstOf (S : Int → Prop) (x : Int) (n : Nat) (l : List Int) : Prop where
  sorted : l.SortedLT
  mem : ∀ t ∈ l, x < t ∧ S t
  length_le : l.length ≤ n
  closed : ∀ t, S t → x < t → t ∉ l → l.length = n ∧ ∀ u ∈ l, u < t

theorem FirstOf.nil (S : Int → Prop) (x : Int) : FirstOf S x 0 [] where
  sorted := List.sortedLT_iff_pairwise.mpr List.Pairwise.nil
  mem := fun _ ht => absurd ht List.not_mem_nil
  length_le := le_rfl
  closed := fun _ _ _ _ => ⟨rfl, fun _ hu => absurd hu List.not_mem_nil⟩

/-- The front of an increasing list of the whole set. -/
theorem FirstOf.of_take {S : Int → Prop} {x : Int} (h : l.SortedLT)
    (hmem : ∀ t, t ∈ l ↔ x < t ∧ S t) (n : Nat) : FirstOf S x n (l.take n) := by
  have hsplit : (l.take n ++ l.drop n).SortedLT := by rwa [List.take_append_drop]
  obtain ⟨htake, -, hlt⟩ := sortedLT_append hsplit
  refine ⟨htake, fun t ht => (hmem t).mp (List.mem_of_mem_take ht), List.length_take_le n l, ?_⟩
  intro t hS hx hnot
  have ht : t ∈ l.drop n := by
    have ht := (hmem t).mpr ⟨hx, hS⟩
    rw [← List.take_append_drop n l, List.mem_append] at ht
    exact ht.resolve_left hnot
  have hlen : n < l.length := by
    have := List.length_pos_of_mem ht
    rw [List.length_drop] at this
    omega
  exact ⟨by rw [List.length_take]; omega, fun u hu => hlt u hu t ht⟩

/-- Cut at a bound, the first elements of the set are the first of any list of its elements up to
the bound, if the list has those that were cut out. -/
theorem FirstOf.filter_eq_take {S : Int → Prop} {x y : Int} {n : Nat} (h : FirstOf S x n l)
    {occ : List Int} (hocc : occ.SortedLT) (hmem : ∀ t ∈ occ, x < t ∧ t ≤ y ∧ S t)
    (hcut : ∀ t ∈ l, t ≤ y → t ∈ occ) : l.filter (· ≤ y) = occ.take n := by
  have hfilter : (l.filter (· ≤ y)).SortedLT := sortedLT_filter h.sorted _
  by_cases hall : ∀ t ∈ occ, t ∈ l
  · -- nothing of the list is missing, so it is short
    have heq : l.filter (· ≤ y) = occ := by
      apply hfilter.eq_of_mem_iff hocc
      intro t
      rw [List.mem_filter, decide_eq_true_eq]
      exact ⟨fun ht => hcut t ht.1 ht.2, fun ht => ⟨hall t ht, (hmem t ht).2.1⟩⟩
    have hlen : occ.length ≤ n := by
      rw [← heq]
      exact (List.length_filter_le _ _).trans h.length_le
    rw [heq, List.take_of_length_le hlen]
  · push Not at hall
    obtain ⟨t, ht, hnot⟩ := hall
    obtain ⟨hx, hy, hS⟩ := hmem t ht
    obtain ⟨hlen, hbelow⟩ := h.closed t hS hx hnot
    have hself : l.filter (· ≤ y) = l := by
      rw [List.filter_eq_self]
      intro u hu
      have := hbelow u hu
      exact decide_eq_true (by omega)
    -- what the list has besides comes after the first elements
    have hoccEq : occ = l ++ occ.filter (· ∉ l) := by
      apply hocc.eq_of_mem_iff
      · refine sortedLT_append_of h.sorted (sortedLT_filter hocc _) ?_
        intro u hu v hv
        rw [List.mem_filter, decide_eq_true_eq] at hv
        obtain ⟨hvx, -, hvS⟩ := hmem v hv.1
        exact (h.closed v hvS hvx hv.2).2 u hu
      · intro u
        rw [List.mem_append, List.mem_filter, decide_eq_true_eq]
        constructor
        · intro hu
          by_cases hul : u ∈ l
          · exact Or.inl hul
          · exact Or.inr ⟨hu, hul⟩
        · rintro (hu | hu)
          · have := hbelow u hu
            exact hcut u hu (by omega)
          · exact hu.1
    rw [hself, hoccEq, List.take_append_of_le_length (by omega), List.take_of_length_le (by omega)]

end Increasing
