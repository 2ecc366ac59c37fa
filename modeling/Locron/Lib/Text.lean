import Mathlib.Tactic

set_option autoImplicit false

/-! # Texts as byte strings

Texts are their bytes in UTF-8. Splitting at an ASCII character and comparing with an ASCII text
look at the bytes only.
-/

namespace Text

universe u

/-- The bytes of a text. -/
def utf8 (s : String) : List UInt8 := s.toUTF8.data.toList

/-- Equality up to the case of letters. -/
def eqIgnoreCase {α : Type u} [BEq α] (lower : α → α) (left right : List α) : Bool :=
  left.map lower == right.map lower

/-- The number of decimal digits with these codes. -/
def decimal {α : Type u} (code : α → Nat) (digits : List α) : Nat :=
  digits.foldl (fun n d => 10 * n + (code d - 48)) 0

section Lists

-- Before the instance that runs through all characters.
instance (priority := 2000) forallMem {α : Type u} (p : α → Prop) [DecidablePred p] (l : List α) :
    Decidable (∀ a ∈ l, p a) := List.decidableBAll p l

variable {α : Type u} [DecidableEq α]

/-- The parts before and after the first separator. -/
def splitOnce (sep : α) : List α → Option (List α × List α)
  | [] => none
  | c :: cs => if c = sep then some ([], cs) else (splitOnce sep cs).map (fun p => (c :: p.1, p.2))

/-- The part before the first separator, everything if there is none. -/
def before (sep : α) (l : List α) : List α := ((splitOnce sep l).map Prod.fst).getD l

variable {sep : α} {l a b : List α}

theorem splitOnce_eq_some : splitOnce sep l = some (a, b) ↔ l = a ++ sep :: b ∧ sep ∉ a := by
  induction l generalizing a with
  | nil => simp [splitOnce]
  | cons c cs ih =>
    unfold splitOnce
    by_cases hc : c = sep
    · subst hc
      rw [if_pos rfl]
      cases a with
      | nil => simp
      | cons x xs =>
        simp only [List.cons_append, List.cons.injEq, List.mem_cons, not_or, Option.some.injEq,
          Prod.mk.injEq, reduceCtorEq, false_and, false_iff, not_and, not_not]
        intro h hne
        exact absurd h.1 hne
    · rw [if_neg hc, Option.map_eq_some_iff]
      constructor
      · rintro ⟨⟨a', b'⟩, h, heq⟩
        obtain ⟨rfl, rfl⟩ := Prod.mk.injEq .. ▸ heq
        obtain ⟨rfl, hnot⟩ := ih.mp h
        exact ⟨rfl, by simp [Ne.symm hc, hnot]⟩
      · rintro ⟨h, hnot⟩
        cases a with
        | nil =>
          simp only [List.nil_append, List.cons.injEq] at h
          exact absurd h.1 hc
        | cons x xs =>
          simp only [List.cons_append, List.cons.injEq] at h
          obtain ⟨rfl, hcs⟩ := h
          simp only [List.mem_cons, not_or] at hnot
          exact ⟨(xs, b), ih.mpr ⟨hcs, hnot.2⟩, rfl⟩

theorem before_of_splitOnce (h : splitOnce sep l = some (a, b)) : before sep l = a := by
  unfold before
  rw [h]
  rfl

theorem before_of_none (h : splitOnce sep l = none) : before sep l = l := by
  unfold before
  rw [h]
  rfl

theorem splitOnce_eq_none : splitOnce sep l = none ↔ sep ∉ l := by
  induction l with
  | nil => simp [splitOnce]
  | cons c cs ih =>
    unfold splitOnce
    by_cases hc : c = sep
    · simp [hc]
    · rw [if_neg hc, Option.map_eq_none_iff, ih]
      simp [Ne.symm hc]

end Lists

/-- If a selection of a list yields one thing, then it selects one element. -/
theorem filter_of_filterMap_eq_singleton {α β : Type u} {f : α → Option β} {p : α → Bool}
    (hp : ∀ a, p a = (f a).isSome) {l : List α} {b : β} (h : l.filterMap f = [b]) :
    ∃ a, l.filter p = [a] ∧ f a = some b := by
  induction l with
  | nil => cases h
  | cons a l ih =>
    cases ha : f a with
    | none =>
      rw [List.filterMap_cons_none ha] at h
      rw [List.filter_cons_of_neg (by rw [hp, ha]; exact Bool.false_ne_true)]
      exact ih h
    | some b' =>
      rw [List.filterMap_cons_some ha, List.cons.injEq] at h
      obtain ⟨rfl, hrest⟩ := h
      have hnone : l.filter p = [] := by
        refine List.filter_eq_nil_iff.mpr fun a' ha' => ?_
        rw [hp, List.filterMap_eq_nil_iff.mp hrest a' ha']
        exact Bool.false_ne_true
      refine ⟨a, ?_, ha⟩
      rw [List.filter_cons_of_pos (by rw [hp, ha]; rfl), hnone]

end Text
