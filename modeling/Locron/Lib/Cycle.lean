import Locron.Lib.Blocks
import Mathlib.Algebra.Ring.Periodic
import Mathlib.Data.Nat.Count

set_option autoImplicit false

/-! # Counting a periodic set of integers

A decidable set of integers with period `N` is known from its members in `0, …, N - 1`. `position`
counts the members below an integer from one division by `N` and a count inside one period,
negative below zero. Differences of positions are the numbers of members of intervals
(`position_sub`).
-/

namespace Cycle

variable (P : Int → Bool) (N : Nat)

/-- The members among `0, …, n - 1`. -/
def below (n : Nat) : Nat := Nat.count (fun i : Nat => P i = true) n

/-- The members below `d`, counted from `0`. -/
def position (d : Int) : Int := d / N * below P N + below P (d % N).toNat

variable {P N}

theorem below_succ (n : Nat) : below P (n + 1) = below P n + if P n then 1 else 0 :=
  Nat.count_succ _ _

theorem below_mono {m n : Nat} (h : m ≤ n) : below P m ≤ below P n := Nat.count_monotone _ h

theorem below_lt {m n : Nat} (hP : P m = true) (h : m < n) : below P m < below P n :=
  Nat.count_strict_mono hP h

theorem apply_mul_add (hper : Function.Periodic P (N : Int)) (q i : Int) :
    P (q * N + i) = P i := by
  rw [add_comm]
  exact hper.int_mul q i

theorem apply_emod (hper : Function.Periodic P (N : Int)) (d : Int) : P (d % N) = P d := by
  rw [← apply_mul_add hper (d / N) (d % N), Int.ediv_mul_add_emod]

/-- One step up counts the integer that was stepped over. -/
theorem position_succ (hN : 0 < N) (hper : Function.Periodic P (N : Int)) (d : Int) :
    position P N (d + 1) = position P N d + if P d then 1 else 0 := by
  have hmod0 : 0 ≤ d % N := Int.emod_nonneg _ (by omega)
  have hmodN : d % N < N := Int.emod_lt_of_pos _ (by omega)
  obtain ⟨r, hr⟩ := Int.eq_ofNat_of_zero_le hmod0
  have hPd : P (r : Int) = P d := by rw [← hr, apply_emod hper]
  have hdiv := Int.mul_ediv_add_emod d N
  set q := d / N with hq
  unfold position
  by_cases hlast : r + 1 < N
  · have hd1 : (d + 1) / N = q ∧ (d + 1) % N = (r + 1 : Nat) := by
      have : d + 1 = (r + 1 : Nat) + N * q := by push_cast; omega
      rw [this]
      constructor
      · rw [Int.add_mul_ediv_left _ _ (by omega), Int.ediv_eq_zero_of_lt (by omega) (by omega)]
        omega
      · rw [Int.add_mul_emod_self_left, Int.emod_eq_of_lt (by omega) (by omega)]
    rw [hd1.1, hd1.2, ← hq, hr, Int.toNat_natCast, Int.toNat_natCast, below_succ, hPd]
    split <;> simp [add_assoc]
  · have hrN : r + 1 = N := by omega
    have hd1 : (d + 1) / N = q + 1 ∧ (d + 1) % N = 0 := by
      have : d + 1 = N * (q + 1) := by rw [mul_add]; omega
      rw [this]
      exact ⟨Int.mul_ediv_cancel_left _ (by omega), Int.mul_emod_right _ _⟩
    have hbelow : below P N = below P r + if P d then 1 else 0 := by
      rw [← hrN, below_succ, hPd]
    rw [hd1.1, hd1.2, ← hq, hr, Int.toNat_natCast]
    have hzero : below P (0 : Int).toNat = 0 := rfl
    rw [hzero, add_mul, one_mul, hbelow]
    split <;> simp [add_assoc]

/-- **Differences of positions count members.** -/
theorem position_sub (hN : 0 < N) (hper : Function.Periodic P (N : Int)) {a b : Int} (h : a ≤ b) :
    position P N b - position P N a = (((Int.range a b).filter P).length : Int) := by
  induction b, h using Int.leInduction with
  | base => simp [Int.range]
  | succ b hab ih =>
    rw [position_succ hN hper, Blocks.range_succ hab, List.filter_append, List.length_append]
    push_cast
    rw [← ih]
    by_cases hP : P b = true
    · simp [hP]
      omega
    · simp [hP]

theorem position_mul_add (hN : 0 < N) (q : Int) {n : Nat} (hn : n ≤ N) :
    position P N (q * N + n) = q * below P N + below P n := by
  unfold position
  rw [add_comm (q * N : Int)]
  rcases hn.lt_or_eq with hlt | rfl
  · rw [Int.add_mul_ediv_right _ _ (by omega), Int.add_mul_emod_self_right,
      Int.ediv_eq_zero_of_lt (by omega) (by omega), Int.emod_eq_of_lt (by omega) (by omega),
      zero_add, Int.toNat_natCast]
  have hmod : (0 : Int).toNat = 0 := rfl
  have hzero : below P 0 = 0 := rfl
  rw [Int.add_mul_ediv_right _ _ (by omega), Int.add_mul_emod_self_right,
    Int.ediv_self (by omega), Int.emod_self, hmod, hzero, add_mul, one_mul]
  push_cast
  ring

section Nearest

variable (hN : 0 < N) (hper : Function.Periodic P (N : Int))
include hN hper

theorem position_mono {a b : Int} (h : a ≤ b) : position P N a ≤ position P N b := by
  have := position_sub hN hper h
  omega

theorem position_lt {a b : Int} (hP : P a = true) (h : a < b) :
    position P N a < position P N b := by
  have hsucc := position_succ hN hper a
  have hmono := position_mono hN hper (by omega : a + 1 ≤ b)
  rw [if_pos hP] at hsucc
  omega

/-- The member with as many members below it as `d` is the first one not below `d`. -/
theorem first_of_position_eq {d t : Int} (hP : P t = true)
    (h : position P N t = position P N d) :
    d ≤ t ∧ ∀ x, d ≤ x → x < t → P x = false := by
  constructor
  · by_contra hlt
    have := position_lt hN hper hP (by omega : t < d)
    omega
  · intro x hdx hxt
    by_contra hx
    have hlow := position_mono hN hper hdx
    have hup := position_lt hN hper (by simpa using hx) hxt
    omega

/-- The last of the members up to `d` is the last one not above `d`. -/
theorem last_of_position_eq {d t : Int} (hP : P t = true)
    (h : position P N t + 1 = position P N (d + 1)) :
    t ≤ d ∧ ∀ x, t < x → x ≤ d → P x = false := by
  have hsucc := position_succ hN hper t
  rw [if_pos hP] at hsucc
  constructor
  · by_contra hlt
    have := position_mono hN hper (by omega : d + 1 ≤ t)
    omega
  · intro x htx hxd
    by_contra hx
    have hlow := position_mono hN hper (by omega : t + 1 ≤ x)
    have hup := position_lt hN hper (by simpa using hx) (by omega : x < d + 1)
    omega

end Nearest

end Cycle
