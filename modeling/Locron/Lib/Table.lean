import Mathlib.Data.List.Basic
import Mathlib.Data.List.Nodup
import Mathlib.Tactic

set_option autoImplicit false

/-! # Tables with a primary key

A table is a list of rows with distinct keys, in the order of insertion. The statements on it are
the usual ones: look a row up, insert a row, change or delete the rows that meet a condition. The
uniqueness of the keys is part of the type, and each statement is described by what a later lookup
finds (`find_insert`, `find_update`, `find_delete`) and by which rows it leaves.
-/

/-- Rows with distinct keys. -/
structure Table {κ ρ : Type} (key : ρ → κ) where
  rows : List ρ
  nodup : (rows.map key).Nodup

namespace Table

variable {κ ρ : Type} {key : ρ → κ}

/-- The table without rows. -/
def empty : Table key := ⟨[], List.nodup_nil⟩

/-! ## Reading -/

/-- Some row meets the condition. -/
def exist (t : Table key) (p : ρ → Bool) : Bool := t.rows.any p

/-- The number of rows that meet the condition. -/
def count (t : Table key) (p : ρ → Bool) : Nat := t.rows.countP p

variable {t : Table key}

@[simp] theorem exist_iff {p : ρ → Bool} :
    t.exist p = true ↔ ∃ r ∈ t.rows, p r = true := by
  simp [exist]

variable {t' : Table key}

theorem ext_rows (h : t.rows = t'.rows) : t = t' := by
  cases t
  cases t'
  cases h
  rfl

variable {r : ρ}

theorem eq_of_key_eq (t : Table key) {r' : ρ} (hr : r ∈ t.rows) (hr' : r' ∈ t.rows)
    (h : key r = key r') : r = r' :=
  List.inj_on_of_nodup_map t.nodup hr hr' h

variable [DecidableEq κ]

/-- The row with the given key. -/
def find (t : Table key) (k : κ) : Option ρ := t.rows.find? (fun r => key r = k)

variable {k : κ}

theorem find_eq_some :
    t.find k = some r ↔ r ∈ t.rows ∧ key r = k := by
  constructor
  · intro h
    exact ⟨List.mem_of_find?_eq_some h, by simpa using List.find?_some h⟩
  · rintro ⟨hr, rfl⟩
    cases h : t.find (key r) with
    | none =>
      have := List.find?_eq_none.mp h r hr
      simp at this
    | some r' =>
      have hr' := List.mem_of_find?_eq_some h
      have hk : key r' = key r := by simpa using List.find?_some h
      rw [t.eq_of_key_eq hr' hr hk]

theorem find_eq_none : t.find k = none ↔ ∀ r ∈ t.rows, key r ≠ k := by
  simp [find, List.find?_eq_none]

theorem key_of_find (h : t.find k = some r) : key r = k :=
  (find_eq_some.mp h).2

theorem mem_of_find (h : t.find k = some r) : r ∈ t.rows :=
  (find_eq_some.mp h).1

theorem find_of_mem (h : r ∈ t.rows) : t.find (key r) = some r :=
  find_eq_some.mpr ⟨h, rfl⟩

/-- At most one row has the key. -/
theorem count_key (t : Table key) {p : ρ → Bool} (hr : t.find k = some r)
    (hp : p r = true) : t.count (fun x => key x = k && p x) = 1 := by
  obtain ⟨hmem, hk⟩ := find_eq_some.mp hr
  have hdistinct : t.rows.Pairwise (fun a b => key a ≠ key b) := by
    have hnodup := t.nodup
    rwa [List.Nodup, List.pairwise_map] at hnodup
  unfold count
  have hpos : 0 < t.rows.countP (fun x => key x = k && p x) :=
    List.countP_pos_iff.mpr ⟨r, hmem, by simp [hk, hp]⟩
  have hle : (t.rows.filter (fun x => key x = k && p x)).length ≤ 1 := by
    by_contra hmore
    obtain ⟨a, b, rest, hsplit⟩ : ∃ a b rest,
        t.rows.filter (fun x => key x = k && p x) = a :: b :: rest := by
      match hl : t.rows.filter (fun x => key x = k && p x) with
      | [] => simp [hl] at hmore
      | [a] => simp [hl] at hmore
      | a :: b :: rest => exact ⟨a, b, rest, rfl⟩
    have hsub := hdistinct.sublist (List.filter_sublist (p := fun x => key x = k && p x))
    rw [hsplit] at hsub
    have ha : a ∈ t.rows.filter (fun x => key x = k && p x) := by simp [hsplit]
    have hb : b ∈ t.rows.filter (fun x => key x = k && p x) := by simp [hsplit]
    simp only [List.mem_filter, Bool.and_eq_true, decide_eq_true_eq] at ha hb
    exact (List.pairwise_cons.mp hsub).1 b (by simp) (ha.2.1.trans hb.2.1.symm)
  rw [List.countP_eq_length_filter] at hpos ⊢
  omega

omit [DecidableEq κ] in
theorem count_le_length (t : Table key) {p : ρ → Bool} {keys : List κ}
    (h : ∀ r ∈ t.rows, p r = true → key r ∈ keys) : t.count p ≤ keys.length := by
  have hnodup : ((t.rows.filter p).map key).Nodup :=
    t.nodup.sublist (List.filter_sublist.map key)
  have hsubset : (t.rows.filter p).map key ⊆ keys := by
    intro k hk
    obtain ⟨r, hr, rfl⟩ := List.mem_map.mp hk
    exact h r (List.mem_filter.mp hr).1 (List.mem_filter.mp hr).2
  have hle := (List.subperm_of_subset hnodup hsubset).length_le
  rw [List.length_map] at hle
  exact (List.countP_eq_length_filter ..).trans_le hle

/-! ## Inserting -/

/-- Adds a row at the end; fails if its key is in use. -/
def insert (t : Table key) (row : ρ) : Option (Table key) :=
  if h : key row ∈ t.rows.map key then none
  else some ⟨t.rows ++ [row], by
    rw [List.map_append, List.nodup_append]
    exact ⟨t.nodup, List.nodup_singleton _, by
      rintro _ hk _ hk' rfl
      exact h ((List.mem_singleton.mp hk') ▸ hk)⟩⟩

variable {row : ρ}

theorem insert_eq_some (h : t.insert row = some t') :
    t.find (key row) = none ∧ t'.rows = t.rows ++ [row] := by
  unfold insert at h
  split at h
  · cases h
  next hk =>
  cases h
  refine ⟨find_eq_none.mpr ?_, rfl⟩
  intro r hr heq
  exact hk (List.mem_map.mpr ⟨r, hr, heq⟩)

theorem insert_eq_none :
    t.insert row = none ↔ ∃ r, t.find (key row) = some r := by
  unfold insert
  split
  · next h =>
    obtain ⟨r, hr, hk⟩ := List.mem_map.mp h
    simp only [true_iff]
    exact ⟨r, find_eq_some.mpr ⟨hr, hk⟩⟩
  · next h =>
    simp only [reduceCtorEq, false_iff, not_exists]
    intro r hr
    exact h (List.mem_map.mpr ⟨r, (find_eq_some.mp hr).1, (find_eq_some.mp hr).2⟩)

theorem exists_insert (h : t.find (key row) = none) :
    ∃ t', t.insert row = some t' := by
  cases hins : t.insert row with
  | some t' => exact ⟨t', rfl⟩
  | none =>
    obtain ⟨r, hr⟩ := insert_eq_none.mp hins
    rw [h] at hr
    cases hr

theorem find_insert (h : t.insert row = some t') (k : κ) :
    t'.find k = if key row = k then some row else t.find k := by
  obtain ⟨hnone, hrows⟩ := insert_eq_some h
  unfold find at hnone ⊢
  rw [hrows, List.find?_append]
  by_cases hk : key row = k
  · subst hk
    simp [hnone]
  · simp [hk]

/-! ## Changing rows -/

/-- Changes the rows that meet the condition; the change leaves the key alone. -/
def update (t : Table key) (p : ρ → Bool) (f : ρ → ρ) (hf : ∀ r, key (f r) = key r) : Table key :=
  ⟨t.rows.map (fun r => if p r then f r else r), by
    have hkey : key ∘ (fun r => if p r then f r else r) = key := by
      funext r
      simp only [Function.comp_apply]
      split
      · exact hf r
      · rfl
    rw [List.map_map, hkey]
    exact t.nodup⟩

variable {p : ρ → Bool} {f : ρ → ρ} {hf : ∀ r, key (f r) = key r}

omit [DecidableEq κ] in
theorem rows_update (t : Table key) :
    (t.update p f hf).rows = t.rows.map (fun r => if p r then f r else r) := rfl

theorem find_update (t : Table key) (k : κ) :
    (t.update p f hf).find k = (t.find k).map (fun r => if p r then f r else r) := by
  unfold find
  rw [rows_update, List.find?_map]
  congr 2
  funext r
  simp only [Function.comp_apply]
  split
  · rw [hf r]
  · rfl

/-- A change that no row of the key meets leaves the key's row alone. -/
theorem find_update_eq_self (t : Table key) (h : ∀ r, key r = k → p r = false) :
    (t.update p f hf).find k = t.find k := by
  rw [find_update]
  cases hr : t.find k with
  | none => rfl
  | some r => simp [h r (key_of_find hr)]

omit [DecidableEq κ] in
/-- A change that no row meets changes nothing. -/
theorem update_eq_self (t : Table key) (h : ∀ r ∈ t.rows, p r = false) :
    t.update p f hf = t := by
  have hrows : (t.update p f hf).rows = t.rows := by
    rw [rows_update]
    conv_rhs => rw [← List.map_id t.rows]
    apply List.map_congr_left
    intro r hr
    simp [h r hr]
  exact ext_rows hrows

/-! ## Deleting rows -/

def delete (t : Table key) (p : ρ → Bool) : Table key :=
  ⟨t.rows.filter (fun r => !p r), t.nodup.sublist ((List.filter_sublist).map key)⟩

omit [DecidableEq κ] in
theorem rows_delete (t : Table key) : (t.delete p).rows = t.rows.filter (fun r => !p r) := rfl

theorem find_delete (t : Table key) (k : κ) :
    (t.delete p).find k = (t.find k).filter (fun r => !p r) := by
  cases h : t.find k with
  | none =>
    rw [find_eq_none] at h
    show _ = none
    rw [find_eq_none]
    intro r hr
    exact h r (List.mem_filter.mp hr).1
  | some r =>
    obtain ⟨hr, hk⟩ := find_eq_some.mp h
    by_cases hp : p r = true
    · simp only [Option.filter, hp, Bool.not_true, Bool.false_eq_true, if_false]
      rw [find_eq_none]
      intro r' hr' hk'
      obtain ⟨hmem, hnot⟩ := List.mem_filter.mp hr'
      rw [t.eq_of_key_eq hmem hr (hk'.trans hk.symm)] at hnot
      simp [hp] at hnot
    · simp only [Option.filter, hp, Bool.not_false, if_true]
      exact find_eq_some.mpr ⟨List.mem_filter.mpr ⟨hr, by simp [hp]⟩, hk⟩

omit [DecidableEq κ] in
/-- A deletion that no row meets deletes nothing. -/
theorem delete_eq_self (t : Table key) (h : ∀ r ∈ t.rows, p r = false) : t.delete p = t := by
  have hrows : (t.delete p).rows = t.rows := by
    rw [rows_delete, List.filter_eq_self]
    intro r hr
    simp [h r hr]
  exact ext_rows hrows

/-- Puts a row in place of the one with its key, or adds it. -/
def replace (t : Table key) (row : ρ) : Table key :=
  ⟨(t.delete (fun r => key r = key row)).rows ++ [row], by
    rw [List.map_append, List.nodup_append]
    refine ⟨(t.delete _).nodup, List.nodup_singleton _, ?_⟩
    rintro _ hk _ hk' rfl
    obtain ⟨r, hr, hkr⟩ := List.mem_map.mp hk
    have hne : key r ≠ key row := by simpa using (List.mem_filter.mp hr).2
    exact hne (hkr.trans (List.mem_singleton.mp hk'))⟩

end Table
