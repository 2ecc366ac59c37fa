import Mathlib.Tactic

set_option autoImplicit false

/-! # Logs of framed items

A log is a sequence of encoded items. An item depends on its position, and a reader finds the next
item of a string if a whole one is there. Any string begins with the log of the items that are read
from it (`Codec.parse_sound`). Whatever part of a log is cut off at its end, reading the rest gives
exactly the items that lie in it (`Codec.parse_take`).
-/

namespace Framing

universe u v

/-- How items are written, and how the next one of a string is read. -/
structure Codec (α : Type u) (β : Type v) where
  encode : α → List β
  next : Nat → List β → Option (α × List β)
  /-- the item can be written at the position -/
  Valid : Nat → α → Prop
  encode_ne_nil : ∀ a, encode a ≠ []
  next_encode : ∀ {i a}, Valid i a → ∀ rest, next i (encode a ++ rest) = some (a, rest)
  next_take : ∀ {i a}, Valid i a → ∀ n, n < (encode a).length → next i ((encode a).take n) = none
  next_sound : ∀ {i l a rest}, next i l = some (a, rest) → Valid i a ∧ l = encode a ++ rest

namespace Codec

variable {α : Type u} {β : Type v} (c : Codec α β)

/-- A log of the given items. -/
def encodeAll (items : List α) : List β := items.flatMap c.encode

/-- The items of a string, from position `i` on, and what is left; each item takes something of the
string, so that fuel of more than its length is enough. -/
def parse : Nat → Nat → List β → List α × List β
  | 0, _, l => ([], l)
  | fuel + 1, i, l =>
    match c.next i l with
    | none => ([], l)
    | some (a, rest) => (a :: (parse fuel (i + 1) rest).1, (parse fuel (i + 1) rest).2)

/-- The items that lie completely within the first `n` elements of their log. -/
def within : Nat → List α → List α
  | _, [] => []
  | n, a :: items =>
    if (c.encode a).length ≤ n then a :: within (n - (c.encode a).length) items else []

/-- The items can be written one after the other, from position `i` on. -/
def ValidFrom : Nat → List α → Prop
  | _, [] => True
  | i, a :: items => c.Valid i a ∧ ValidFrom (i + 1) items

theorem encodeAll_cons (a : α) (items : List α) :
    c.encodeAll (a :: items) = c.encode a ++ c.encodeAll items := rfl

theorem encodeAll_append (items items' : List α) :
    c.encodeAll (items ++ items') = c.encodeAll items ++ c.encodeAll items' :=
  List.flatMap_append ..

theorem next_shorter {i : Nat} {l rest : List β} {a : α} (h : c.next i l = some (a, rest)) :
    rest.length < l.length := by
  have hpos := List.length_pos_iff.mpr (c.encode_ne_nil a)
  rw [(c.next_sound h).2, List.length_append]
  omega

theorem next_nil (i : Nat) : c.next i [] = none := by
  cases h : c.next i [] with
  | none => rfl
  | some x =>
    have hlt := c.next_shorter h
    simp at hlt

theorem parse_of_none {i : Nat} {l : List β} (h : c.next i l = none) (fuel : Nat) :
    c.parse fuel i l = ([], l) := by
  cases fuel with
  | zero => rfl
  | succ fuel =>
    unfold parse
    rw [h]

theorem parse_of_some {i : Nat} {l rest : List β} {a : α} (h : c.next i l = some (a, rest))
    (fuel : Nat) : c.parse (fuel + 1) i l
      = (a :: (c.parse fuel (i + 1) rest).1, (c.parse fuel (i + 1) rest).2) := by
  show (match c.next i l with | none => _ | some (a, rest) => _) = _
  rw [h]

/-- **A string is the log of the items read from it, and what is left.** -/
theorem parse_sound (fuel i : Nat) (l : List β) :
    c.ValidFrom i (c.parse fuel i l).1 ∧
      l = c.encodeAll (c.parse fuel i l).1 ++ (c.parse fuel i l).2 := by
  induction fuel generalizing i l with
  | zero => exact ⟨trivial, rfl⟩
  | succ fuel ih =>
    cases hnext : c.next i l with
    | none =>
      rw [c.parse_of_none hnext]
      exact ⟨trivial, rfl⟩
    | some x =>
      obtain ⟨hvalid, rfl⟩ := c.next_sound hnext
      obtain ⟨htail, hrest⟩ := ih (i + 1) x.2
      rw [c.parse_of_some hnext]
      refine ⟨⟨hvalid, htail⟩, ?_⟩
      rw [encodeAll_cons, List.append_assoc, ← hrest]

theorem validFrom_append {i : Nat} {items items' : List α} :
    c.ValidFrom i (items ++ items') ↔
      c.ValidFrom i items ∧ c.ValidFrom (i + items.length) items' := by
  induction items generalizing i with
  | nil => simp [ValidFrom]
  | cons a items ih =>
    rw [List.cons_append, ValidFrom, ValidFrom, ih, List.length_cons, and_assoc,
      show i + 1 + items.length = i + (items.length + 1) by omega]

/-- The items that lie within the log begin it. -/
theorem within_prefix (n : Nat) (items : List α) : c.within n items <+: items := by
  induction items generalizing n with
  | nil => exact List.nil_prefix
  | cons a items ih =>
    unfold within
    split
    · exact (List.prefix_cons_inj a).mpr (ih _)
    · exact List.nil_prefix

/-- The more of a log there is, the more items lie in it. -/
theorem within_mono {n m : Nat} (h : n ≤ m) (items : List α) :
    (c.within n items).length ≤ (c.within m items).length := by
  induction items generalizing n m with
  | nil => exact le_refl _
  | cons a items ih =>
    unfold within
    by_cases hle : (c.encode a).length ≤ n
    · rw [if_pos hle, if_pos (le_trans hle h)]
      exact Nat.succ_le_succ (ih (by omega))
    · rw [if_neg hle]
      exact Nat.zero_le _

theorem within_self (items : List α) {n : Nat} (h : (c.encodeAll items).length ≤ n) :
    c.within n items = items := by
  induction items generalizing n with
  | nil => rfl
  | cons a items ih =>
    rw [encodeAll_cons, List.length_append] at h
    unfold within
    rw [if_pos (by omega), ih (by omega)]

/-- **Reading what is left of a log**: the items that lie in it are read, and nothing else. -/
theorem parse_take {i n fuel : Nat} {items : List α} (hvalid : c.ValidFrom i items)
    (hfuel : ((c.encodeAll items).take n).length < fuel) :
    (c.parse fuel i ((c.encodeAll items).take n)).1 = c.within n items ∧
    (c.encodeAll items).take n = c.encodeAll (c.within n items)
      ++ (c.parse fuel i ((c.encodeAll items).take n)).2 := by
  induction items generalizing i n fuel with
  | nil =>
    obtain ⟨fuel, rfl⟩ : ∃ k, fuel = k + 1 := ⟨fuel - 1, by omega⟩
    simp [encodeAll, parse, next_nil, within]
  | cons a items ih =>
    obtain ⟨hhead, htail⟩ := hvalid
    obtain ⟨fuel, rfl⟩ : ∃ k, fuel = k + 1 := ⟨fuel - 1, by omega⟩
    by_cases hle : (c.encode a).length ≤ n
    · -- the whole item is there
      have htake : (c.encodeAll (a :: items)).take n
          = c.encode a ++ (c.encodeAll items).take (n - (c.encode a).length) := by
        rw [encodeAll_cons, List.take_append, List.take_of_length_le hle]
      have hlt := c.next_shorter (c.next_encode hhead
        ((c.encodeAll items).take (n - (c.encode a).length)))
      rw [htake] at hfuel ⊢
      have hshort : ((c.encodeAll items).take (n - (c.encode a).length)).length < fuel := by
        omega
      obtain ⟨hparse, hrest⟩ := ih htail hshort
      unfold parse within
      rw [c.next_encode hhead, if_pos hle]
      dsimp only
      rw [hparse, encodeAll_cons, List.append_assoc, ← hrest]
      exact ⟨rfl, rfl⟩
    · -- the string ends within the item
      have htake : (c.encodeAll (a :: items)).take n = (c.encode a).take n := by
        rw [encodeAll_cons, List.take_append_of_le_length (by omega)]
      rw [htake]
      unfold parse within
      rw [c.next_take hhead n (by omega), if_neg hle]
      exact ⟨rfl, rfl⟩

end Codec

end Framing
