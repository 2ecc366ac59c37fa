import Mathlib.Tactic

set_option autoImplicit false

/-! # Byte strings

Numbers as a fixed number of bytes, the least significant one first, reads of an exact length, and
the division of a string into chunks.
-/

namespace Bytes

/-! ## Little-endian numbers -/

/-- The `w` low bytes of a number. -/
def encode : Nat → Nat → List UInt8
  | 0, _ => []
  | w + 1, n => UInt8.ofNat n :: encode w (n / 256)

/-- The number with the given bytes. -/
def decode : List UInt8 → Nat
  | [] => 0
  | b :: bs => b.toNat + 256 * decode bs

@[simp] theorem length_encode (w n : Nat) : (encode w n).length = w := by
  induction w generalizing n with
  | zero => rfl
  | succ w ih => simp [encode, ih]

/-- **A number that fits is read back.** -/
theorem decode_encode {w n : Nat} (h : n < 256 ^ w) : decode (encode w n) = n := by
  induction w generalizing n with
  | zero =>
    rw [pow_zero] at h
    show 0 = n
    omega
  | succ w ih =>
    have hdiv : n / 256 < 256 ^ w := by
      rw [pow_succ] at h
      exact Nat.div_lt_of_lt_mul (by rwa [Nat.mul_comm] at h)
    calc decode (encode (w + 1) n)
        = (UInt8.ofNat n).toNat + 256 * decode (encode w (n / 256)) := rfl
      _ = n % 256 + 256 * (n / 256) := by rw [ih hdiv, UInt8.toNat_ofNat']
      _ = n := Nat.mod_add_div n 256

theorem decode_lt (l : List UInt8) : decode l < 256 ^ l.length := by
  induction l with
  | nil => simp [decode]
  | cons b l ih =>
    have hb := b.toNat_lt
    rw [List.length_cons, pow_succ]
    show b.toNat + 256 * decode l < 256 ^ l.length * 256
    omega

/-- Every string of bytes is the encoding of its number. -/
theorem encode_decode {w : Nat} {l : List UInt8} (h : l.length = w) : encode w (decode l) = l := by
  subst h
  induction l with
  | nil => rfl
  | cons b l ih =>
    have hb := b.toNat_lt
    have hlow : UInt8.ofNat (b.toNat + 256 * decode l) = b := by
      rw [← UInt8.toNat_inj, UInt8.toNat_ofNat']
      omega
    have hhigh : (b.toNat + 256 * decode l) / 256 = decode l := by omega
    show UInt8.ofNat (b.toNat + 256 * decode l)
      :: encode l.length ((b.toNat + 256 * decode l) / 256) = b :: l
    rw [hlow, hhigh, ih]

/-! ## Exact reads -/

section Lists

universe u

variable {α : Type u}

/-- The first `n` elements and the rest, if there are that many. -/
def readExact (n : Nat) (l : List α) : Option (List α × List α) :=
  if n ≤ l.length then some (l.take n, l.drop n) else none

theorem readExact_append {n : Nat} {a : List α} (h : a.length = n) (rest : List α) :
    readExact n (a ++ rest) = some (a, rest) := by
  subst h
  simp [readExact]

theorem readExact_eq_none {n : Nat} {l : List α} : readExact n l = none ↔ l.length < n := by
  simp [readExact]

theorem readExact_eq_some {n : Nat} {l a rest : List α} (h : readExact n l = some (a, rest)) :
    a.length = n ∧ l = a ++ rest := by
  obtain ⟨hle, heq⟩ := Option.ite_none_right_eq_some.mp h
  cases heq
  exact ⟨by simpa using hle, (List.take_append_drop n l).symm⟩

/-! ## Chunks -/

/-- The chunks of length `n`, the last one may be shorter; each takes at least one element, so the
fuel of the length of the list is enough. -/
def chunksWith (n : Nat) : Nat → List α → List (List α)
  | 0, _ => []
  | _ + 1, [] => []
  | fuel + 1, x :: l => (x :: l).take n :: chunksWith n fuel ((x :: l).drop n)

def chunks (n : Nat) (l : List α) : List (List α) := chunksWith n l.length l

theorem flatten_chunksWith {n : Nat} (hn : 0 < n) (fuel : Nat) (l : List α)
    (h : l.length ≤ fuel) : (chunksWith n fuel l).flatten = l := by
  induction fuel generalizing l with
  | zero =>
    rw [List.length_eq_zero_iff.mp (Nat.le_zero.mp h)]
    rfl
  | succ fuel ih =>
    cases l with
    | nil => rfl
    | cons x l =>
      have hdrop : ((x :: l).drop n).length ≤ fuel := by
        rw [List.length_drop]
        rw [List.length_cons] at h ⊢
        omega
      rw [chunksWith, List.flatten_cons, ih _ hdrop, List.take_append_drop]

/-- **The chunks make up the list.** -/
theorem flatten_chunks {n : Nat} (hn : 0 < n) (l : List α) : (chunks n l).flatten = l :=
  flatten_chunksWith hn l.length l (le_refl _)

theorem mem_chunksWith {n : Nat} (hn : 0 < n) {fuel : Nat} {l c : List α}
    (h : c ∈ chunksWith n fuel l) : 0 < c.length ∧ c.length ≤ n := by
  induction fuel generalizing l with
  | zero => cases h
  | succ fuel ih =>
    cases l with
    | nil => cases h
    | cons x l =>
      rcases List.mem_cons.mp h with rfl | h
      · rw [List.length_take, List.length_cons]
        omega
      · exact ih h

/-- No chunk is empty or too long. -/
theorem mem_chunks {n : Nat} (hn : 0 < n) {l c : List α} (h : c ∈ chunks n l) :
    0 < c.length ∧ c.length ≤ n :=
  mem_chunksWith hn h

end Lists

end Bytes
