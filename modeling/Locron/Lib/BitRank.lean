import Mathlib.Data.List.TakeWhile
import Mathlib.Data.Nat.Nth
import Mathlib.Tactic

set_option autoImplicit false

/-! # Rank and select on a bit set stored in words

A set of natural numbers is stored as a list of `w`-bit words: `i` is a member when bit `i % w`
of word `i / w` is set. Next to the words stands the list of their prefix population counts.
`rank` counts the members below a position with one lookup and one masked population count;
`select` finds the member of a given rank by searching the prefixes and clearing the lowest set
bit of the word it found. The reference for both is `Nat.count` of the membership predicate:

* `rank_eq_count`: `rank` is `Nat.count`.
* `bit_select`, `count_select`: `select k` is the member with exactly `k` members below it.
-/

namespace BitRank

variable (w : Nat)

/-- Membership of `i`. -/
def bit (words : List Nat) (i : Nat) : Bool := (words.getD (i / w) 0).testBit (i % w)

/-- Number of set bits among the lowest `w`. -/
def popcount (x : Nat) : Nat := Nat.count (fun i => x.testBit i = true) w

/-- Make `i` a member. -/
def setBit (words : List Nat) (i : Nat) : List Nat :=
  words.modify (i / w) (fun x => x ||| 1 <<< (i % w))

/-- Members in the first `0, 1, 2, …` words. -/
def prefixes (words : List Nat) : List Nat := words.scanl (fun acc x => acc + popcount w x) 0

/-- Members below `i`. -/
def rank (words pre : List Nat) (i : Nat) : Nat :=
  pre.getD (i / w) 0 + popcount w (words.getD (i / w) 0 &&& (2 ^ (i % w) - 1))

/-- Clear the lowest set bit `k` times. -/
def clearLowest (x : Nat) : Nat → Nat
  | 0 => x
  | k + 1 => clearLowest (x &&& (x - 1)) k

/-- Position of the lowest set bit, `w` if there is none. -/
def trailingZeros (x : Nat) : Nat := ((List.range w).find? (fun i => x.testBit i)).getD w

/-- The member with `k` members below it. -/
def select (words pre : List Nat) (k : Nat) : Nat :=
  let j := (pre.takeWhile (fun p => p ≤ k)).length - 1
  w * j + trailingZeros w (clearLowest (words.getD j 0) (k - pre.getD j 0))

/-! ## One word -/

/-- Clearing the lowest set bit clears exactly that bit. -/
theorem testBit_and_pred {x l : Nat} (hl : x.testBit l = true)
    (hmin : ∀ j < l, x.testBit j = false) (i : Nat) :
    (x &&& (x - 1)).testBit i = (x.testBit i && decide (i ≠ l)) := by
  induction l generalizing x i with
  | zero =>
    have hodd : x % 2 = 1 := by simpa [Nat.testBit_zero] using hl
    cases i with
    | zero => simp [Nat.testBit_zero]; omega
    | succ i =>
      have hhalf : (x - 1) / 2 = x / 2 := by omega
      rw [Nat.testBit_and, Nat.testBit_succ, Nat.testBit_succ, hhalf]
      simp
  | succ l ih =>
    have heven : x % 2 = 0 := by
      have := hmin 0 (by omega)
      simp [Nat.testBit_zero] at this; omega
    have hpos : 0 < x := Nat.pos_of_ne_zero (by rintro rfl; simp at hl)
    cases i with
    | zero => simp [Nat.testBit_zero, heven]
    | succ i =>
      have hhalf : (x - 1) / 2 = x / 2 - 1 := by omega
      rw [Nat.testBit_succ] at hl
      have hmin' : ∀ j < l, (x / 2).testBit j = false := by
        intro j hj
        rw [← Nat.testBit_succ]
        exact hmin (j + 1) (by omega)
      have h := ih hl hmin' i
      rw [Nat.testBit_and] at h ⊢
      rw [Nat.testBit_succ, Nat.testBit_succ, hhalf, h]
      simp

theorem trailingZeros_spec {x : Nat} (h : 0 < popcount w x) :
    trailingZeros w x < w ∧ x.testBit (trailingZeros w x) = true ∧
      ∀ j < trailingZeros w x, x.testBit j = false := by
  have hex : ∃ i < w, x.testBit i = true := by
    by_contra hcon
    push Not at hcon
    have h0 : popcount w x = 0 := by
      unfold popcount
      rw [Nat.count_iff_forall_not]
      intro n hn
      exact hcon n hn
    omega
  unfold trailingZeros
  cases hf : (List.range w).find? (fun i => x.testBit i) with
  | none =>
    obtain ⟨i, hi, hb⟩ := hex
    exact absurd hb (List.find?_eq_none.mp hf i (List.mem_range.mpr hi))
  | some t =>
    simp only [Option.getD_some]
    refine ⟨List.mem_range.mp (List.mem_of_find?_eq_some hf), List.find?_some hf, ?_⟩
    intro j hj
    rw [List.find?_range_eq_some] at hf
    simpa using hf.2.2 j hj

/-- Clearing the lowest set bit takes one off the counts above it. -/
theorem count_and_pred {x l : Nat} (hl : x.testBit l = true)
    (hmin : ∀ j < l, x.testBit j = false) (n : Nat) :
    Nat.count (fun i => (x &&& (x - 1)).testBit i = true) n + (if l < n then 1 else 0)
      = Nat.count (fun i => x.testBit i = true) n := by
  induction n with
  | zero => simp
  | succ n ih =>
    rw [Nat.count_succ, Nat.count_succ, ← ih, testBit_and_pred hl hmin]
    rcases lt_trichotomy n l with h | rfl | h
    · simp [hmin n h, show ¬ l < n by omega, show ¬ l < n + 1 by omega]
    · simp [hl]
    have hne : n ≠ l := by omega
    simp only [h, hne, if_true, show l < n + 1 by omega, decide_true, Bool.and_true, ne_eq,
      not_false_eq_true]
    omega

/-- Within one word, `clearLowest` and `trailingZeros` find the set bit of rank `k`. -/
theorem trailingZeros_clearLowest {x k : Nat} (hk : k < popcount w x) :
    trailingZeros w (clearLowest x k) < w ∧
      x.testBit (trailingZeros w (clearLowest x k)) = true ∧
      Nat.count (fun i => x.testBit i = true) (trailingZeros w (clearLowest x k)) = k := by
  induction k generalizing x with
  | zero =>
    obtain ⟨hlt, hbit, hmin⟩ := trailingZeros_spec w hk
    refine ⟨hlt, hbit, ?_⟩
    show Nat.count _ (trailingZeros w x) = 0
    rw [Nat.count_iff_forall_not]
    intro n hn
    simp [hmin n hn]
  | succ k ih =>
    obtain ⟨hlt, hbit, hmin⟩ := trailingZeros_spec w (by omega : 0 < popcount w x)
    set l := trailingZeros w x
    have hcount := count_and_pred hbit hmin w
    rw [if_pos hlt] at hcount
    have hk' : k < popcount w (x &&& (x - 1)) := by unfold popcount at hk ⊢; omega
    obtain ⟨ht, htbit, htcount⟩ := ih hk'
    show trailingZeros w (clearLowest (x &&& (x - 1)) k) < w ∧ _
    set t := trailingZeros w (clearLowest (x &&& (x - 1)) k)
    rw [testBit_and_pred hbit hmin] at htbit
    simp only [ne_eq, Bool.and_eq_true, decide_eq_true_eq] at htbit
    have hlt' : l < t := by
      rcases lt_trichotomy l t with h | h | h
      · exact h
      · exact absurd h.symm htbit.2
      · rw [hmin t h] at htbit; exact absurd htbit.1 (by simp)
    refine ⟨ht, htbit.1, ?_⟩
    have := count_and_pred hbit hmin t
    rw [if_pos hlt', htcount] at this
    exact this.symm

theorem popcount_and_mask {x r : Nat} (hr : r ≤ w) :
    popcount w (x &&& (2 ^ r - 1)) = Nat.count (fun i => x.testBit i = true) r := by
  have hbit : ∀ i, (x &&& (2 ^ r - 1)).testBit i = (x.testBit i && decide (i < r)) := by
    intro i; rw [Nat.testBit_and, Nat.testBit_two_pow_sub_one]
  obtain ⟨s, rfl⟩ := Nat.exists_eq_add_of_le hr
  unfold popcount
  rw [Nat.count_add]
  have hlow : Nat.count (fun i => (x &&& (2 ^ r - 1)).testBit i = true) r
      = Nat.count (fun i => x.testBit i = true) r := by
    rw [Nat.count_eq_card_filter_range, Nat.count_eq_card_filter_range]
    congr 1
    apply Finset.filter_congr
    intro i hi
    rw [hbit]
    simp [Finset.mem_range.mp hi]
  have hhigh : Nat.count (fun k => (x &&& (2 ^ r - 1)).testBit (r + k) = true) s = 0 := by
    rw [Nat.count_iff_forall_not]
    intro n _
    rw [hbit]
    simp
  omega

/-! ## All words -/

variable {w}

theorem bit_mul_add (words : List Nat) {j r : Nat} (hr : r < w) :
    bit w words (w * j + r) = (words.getD j 0).testBit r := by
  unfold bit
  rw [Nat.mul_add_div (by omega), Nat.mul_add_mod, Nat.div_eq_of_lt hr, Nat.mod_eq_of_lt hr,
    Nat.add_zero]

/-- Counting up to a position inside word `j`: the words before it, then its low bits. -/
theorem count_bit_mul_add (words : List Nat) {j r : Nat} (hr : r ≤ w) :
    Nat.count (fun i => bit w words i = true) (w * j + r)
      = Nat.count (fun i => bit w words i = true) (w * j)
        + Nat.count (fun i => (words.getD j 0).testBit i = true) r := by
  rw [Nat.count_add]
  congr 1
  rw [Nat.count_eq_card_filter_range, Nat.count_eq_card_filter_range]
  congr 1
  apply Finset.filter_congr
  intro i hi
  rw [bit_mul_add words (lt_of_lt_of_le (Finset.mem_range.mp hi) hr)]

theorem count_bit_word_succ (words : List Nat) (j : Nat) :
    Nat.count (fun i => bit w words i = true) (w * (j + 1))
      = Nat.count (fun i => bit w words i = true) (w * j) + popcount w (words.getD j 0) := by
  rw [Nat.mul_succ, count_bit_mul_add words (Nat.le_refl w)]
  rfl

theorem length_prefixes (words : List Nat) : (prefixes w words).length = words.length + 1 := by
  simp [prefixes, List.length_scanl]

theorem getD_prefixes (words : List Nat) {j : Nat} (hj : j ≤ words.length) :
    (prefixes w words).getD j 0 = Nat.count (fun i => bit w words i = true) (w * j) := by
  induction j with
  | zero =>
    unfold prefixes
    cases words <;> simp
  | succ j ih =>
    have hlen := length_prefixes (w := w) words
    have ih' := ih (by omega)
    rw [count_bit_word_succ, ← ih']
    rw [List.getD_eq_getElem _ _ (by omega), List.getD_eq_getElem _ _ (by omega),
      List.getD_eq_getElem _ _ (by omega)]
    simp only [prefixes]
    rw [List.getElem_succ_scanl]

/-- **`rank` counts the members below a position.** -/
theorem rank_eq_count (hw : 0 < w) (words : List Nat) {i : Nat} (hi : i / w ≤ words.length) :
    rank w words (prefixes w words) i = Nat.count (fun i => bit w words i = true) i := by
  have hr : i % w ≤ w := Nat.le_of_lt (Nat.mod_lt _ hw)
  unfold rank
  rw [getD_prefixes words hi, popcount_and_mask w hr, ← count_bit_mul_add words hr,
    Nat.div_add_mod]

/-- The word `select` looks into is the one whose prefix counts enclose the rank. -/
theorem prefix_search (words : List Nat) {k : Nat}
    (hk : k < Nat.count (fun i => bit w words i = true) (w * words.length)) :
    let j := ((prefixes w words).takeWhile (fun p => p ≤ k)).length - 1
    j < words.length ∧ Nat.count (fun i => bit w words i = true) (w * j) ≤ k ∧
      k < Nat.count (fun i => bit w words i = true) (w * (j + 1)) := by
  intro j
  set l := (prefixes w words).takeWhile (fun p => p ≤ k) with hl
  have hlen := length_prefixes (w := w) words
  -- the first prefix is `0`, so the search takes at least one element
  have hpos : 0 < l.length := by
    rw [hl]
    unfold prefixes
    cases words <;> simp
  have hle : l.length ≤ words.length := by
    by_contra hcon
    have hall : l.length = (prefixes w words).length := by
      have : l.length ≤ (prefixes w words).length := (List.takeWhile_prefix _).length_le
      omega
    have heq : l = prefixes w words := (List.takeWhile_prefix _).eq_of_length hall
    have hmem : (prefixes w words).getD words.length 0 ∈ l := by
      rw [heq, List.getD_eq_getElem _ _ (by omega)]
      exact List.getElem_mem _
    have := List.mem_takeWhile_imp hmem
    rw [getD_prefixes words (Nat.le_refl _)] at this
    simp at this
    omega
  have hj : j = l.length - 1 := rfl
  refine ⟨by omega, ?_, ?_⟩
  · rw [← getD_prefixes words (by omega : j ≤ words.length)]
    have hmem : (prefixes w words).getD j 0 ∈ l := by
      have hlt : j < l.length := by omega
      have hget : l[j] = (prefixes w words).getD j 0 := by
        rw [List.getD_eq_getElem _ _ (by omega)]
        exact (List.takeWhile_prefix _).getElem hlt
      rw [← hget]
      exact List.getElem_mem _
    simpa using List.mem_takeWhile_imp hmem
  · rw [← getD_prefixes words (by omega : j + 1 ≤ words.length)]
    by_contra hcon
    push Not at hcon
    set d := (prefixes w words).dropWhile (fun p => p ≤ k) with hd
    have happ : prefixes w words = l ++ d := List.takeWhile_append_dropWhile.symm
    have hdlen : 0 < d.length := by
      have := congrArg List.length happ
      rw [List.length_append] at this
      omega
    have hnot := List.dropWhile_get_zero_not (fun p => decide (p ≤ k)) (prefixes w words) hdlen
    have hget : (prefixes w words).getD (j + 1) 0 = d.get ⟨0, hdlen⟩ := by
      rw [happ, List.getD_append_right _ _ _ _ (by omega), show j + 1 - l.length = 0 by omega,
        List.getD_eq_getElem _ _ hdlen]
      rfl
    rw [hget] at hcon
    exact hnot (by simpa using hcon)

variable (words : List Nat) {k : Nat}
  (hk : k < Nat.count (fun i => bit w words i = true) (w * words.length))

include hk in
theorem select_spec :
    select w words (prefixes w words) k < w * words.length ∧
      bit w words (select w words (prefixes w words) k) = true ∧
      Nat.count (fun i => bit w words i = true) (select w words (prefixes w words) k) = k := by
  obtain ⟨hj, hlo, hhi⟩ := prefix_search words hk
  unfold select
  set j := ((prefixes w words).takeWhile (fun p => p ≤ k)).length - 1
  simp only
  rw [getD_prefixes words (Nat.le_of_lt hj)]
  rw [count_bit_word_succ] at hhi
  set c := Nat.count (fun i => bit w words i = true) (w * j)
  obtain ⟨ht, hbit, hcount⟩ :=
    trailingZeros_clearLowest w (by omega : k - c < popcount w (words.getD j 0))
  set t := trailingZeros w (clearLowest (words.getD j 0) (k - c))
  refine ⟨?_, ?_, ?_⟩
  · calc w * j + t < w * (j + 1) := by rw [Nat.mul_succ]; omega
      _ ≤ w * words.length := Nat.mul_le_mul_left _ hj
  · rw [bit_mul_add words ht, hbit]
  · rw [count_bit_mul_add words (Nat.le_of_lt ht), hcount]
    omega

include hk in
/-- **`select` returns a member.** -/
theorem bit_select : bit w words (select w words (prefixes w words) k) = true :=
  (select_spec words hk).2.1

include hk in
/-- **`select k` has exactly `k` members below it.** -/
theorem count_select :
    Nat.count (fun i => bit w words i = true) (select w words (prefixes w words) k) = k :=
  (select_spec words hk).2.2

/-! ## Building the set -/

theorem length_setBit (i : Nat) : (setBit w words i).length = words.length := by
  simp [setBit]

/-- Setting a bit adds that one member. -/
theorem bit_setBit (hw : 0 < w) {i : Nat} (hi : i / w < words.length) (n : Nat) :
    bit w (setBit w words i) n = (bit w words n || decide (n = i)) := by
  unfold bit setBit
  have hmod := Nat.mod_lt i hw
  by_cases hdiv : n / w = i / w
  · have hn : n = i ↔ n % w = i % w := by
      constructor
      · rintro rfl; rfl
      · intro h
        rw [← Nat.div_add_mod n w, ← Nat.div_add_mod i w, hdiv, h]
    rw [List.getD_eq_getElem?_getD, List.getElem?_modify, hdiv,
      List.getElem?_eq_getElem hi, List.getD_eq_getElem _ _ hi]
    simp only [Option.map_eq_map, Option.map_some, Option.getD_some, if_true, Nat.testBit_or, hn]
    congr 1
    rw [Nat.shiftLeft_eq, one_mul, Nat.testBit_two_pow]
    exact decide_eq_decide.mpr eq_comm
  · have hne : n ≠ i := by rintro rfl; exact hdiv rfl
    rw [List.getD_eq_getElem?_getD, List.getElem?_modify]
    simp [hne, Ne.symm hdiv, List.getD_eq_getElem?_getD]

section Build

variable (P : Nat → Bool) (n : Nat)

/-- Walk over `0, …, n - 1` and make each position that satisfies `P` a member. -/
def build (w : Nat) (P : Nat → Bool) (words : List Nat) (n : Nat) : List Nat :=
  (List.range n).foldl (fun acc i => if P i then setBit w acc i else acc) words

theorem build_succ :
    build w P words (n + 1)
      = if P n then setBit w (build w P words n) n else build w P words n := by
  unfold build
  rw [List.range_succ, List.foldl_append]
  rfl

theorem length_build : (build w P words n).length = words.length := by
  induction n with
  | zero => rfl
  | succ n ih =>
    rw [build_succ]
    split
    · rw [length_setBit, ih]
    · exact ih

/-- The walk adds exactly the positions below `n` that satisfy `P`. -/
theorem bit_build (hw : 0 < w) (hn : n ≤ w * words.length) (i : Nat) :
    bit w (build w P words n) i = (bit w words i || (decide (i < n) && P i)) := by
  induction n with
  | zero => simp [build]
  | succ n ih =>
    have ih' := ih (by omega)
    have hword : n / w < (build w P words n).length := by
      rw [length_build]
      exact (Nat.div_lt_iff_lt_mul hw).mpr (by rw [Nat.mul_comm]; omega)
    rw [build_succ]
    by_cases hP : P n = true
    · rw [if_pos hP, bit_setBit _ hw hword, ih']
      rcases lt_trichotomy i n with h | rfl | h
      · simp [h, show i < n + 1 by omega, show i ≠ n by omega]
      · simp [hP]
      · simp [show ¬ i < n by omega, show ¬ i < n + 1 by omega, show i ≠ n by omega]
    · rw [if_neg hP, ih']
      rcases lt_trichotomy i n with h | rfl | h
      · simp [h, show i < n + 1 by omega]
      · simp [hP]
      · simp [show ¬ i < n by omega, show ¬ i < n + 1 by omega]

theorem bit_replicate_zero (m i : Nat) : bit w (List.replicate m 0) i = false := by
  unfold bit
  rw [List.getD_eq_getElem?_getD, List.getElem?_replicate]
  split <;> simp

end Build

end BitRank
