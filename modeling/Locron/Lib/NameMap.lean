import Mathlib.Tactic

set_option autoImplicit false

/-! # Maps with texts as keys

A map as the list of its entries in the order of the keys, so that two maps are equal exactly if
they have the same entries.
-/

universe u

/-- A map from texts, in the order of its keys. -/
structure NameMap (α : Type u) where
  entries : List (List Char × α)
  sorted : (entries.map Prod.fst).Pairwise (· < ·)
deriving DecidableEq

namespace NameMap

variable {α : Type u} (m : NameMap α) (name : List Char)

def keys : List (List Char) := m.entries.map Prod.fst

def values : List α := m.entries.map Prod.snd

def length : Nat := m.entries.length

def get : Option α := m.entries.lookup name

/-- The map with every value replaced. -/
def map {β : Type u} (f : List Char → α → β) : NameMap β where
  entries := m.entries.map fun entry => (entry.1, f entry.1 entry.2)
  sorted := by simpa [List.map_map, Function.comp_def] using m.sorted

variable {m name}

theorem nodup_keys : m.keys.Nodup := by
  refine m.sorted.imp fun {a b} hlt heq => ?_
  rw [heq] at hlt
  exact List.lt_irrefl b hlt

theorem get_eq_some {value : α} : m.get name = some value ↔ (name, value) ∈ m.entries := by
  unfold get
  have hnodup : (m.entries.map Prod.fst).Nodup := m.nodup_keys
  generalize m.entries = entries at hnodup ⊢
  induction entries with
  | nil => simp
  | cons entry entries ih =>
    obtain ⟨key, other⟩ := entry
    obtain ⟨hkey, hentries⟩ := List.nodup_cons.mp hnodup
    rw [List.lookup_cons]
    by_cases hname : name = key
    · subst hname
      simp only [beq_self_eq_true, List.mem_cons, Prod.mk.injEq, true_and]
      constructor
      · rintro ⟨⟩
        exact Or.inl rfl
      · rintro (rfl | hmem)
        · rfl
        · exact absurd (List.mem_map.mpr ⟨_, hmem, rfl⟩) hkey
    · have hbeq : (name == key) = false := beq_false_of_ne hname
      rw [hbeq]
      simp [ih hentries, hname]

theorem mem_values {value : α} : value ∈ m.values ↔ ∃ name, (name, value) ∈ m.entries := by
  simp [values]

theorem keys_map {β : Type u} (f : List Char → α → β) : (m.map f).keys = m.keys := by
  simp [keys, map, Function.comp_def]

theorem length_map {β : Type u} (f : List Char → α → β) : (m.map f).length = m.length :=
  List.length_map _

theorem mem_entries_map {β : Type u} {f : List Char → α → β} {entry : List Char × β} :
    entry ∈ (m.map f).entries ↔ ∃ value, (entry.1, value) ∈ m.entries ∧
      entry.2 = f entry.1 value := by
  simp only [map, List.mem_map]
  constructor
  · rintro ⟨⟨name, value⟩, hmem, rfl⟩
    exact ⟨value, hmem, rfl⟩
  · rintro ⟨value, hmem, heq⟩
    exact ⟨(entry.1, value), hmem, by rw [← heq]⟩

theorem get_map {β : Type u} (f : List Char → α → β) (name : List Char) :
    (m.map f).get name = (m.get name).map (f name) := by
  show (m.entries.map fun entry => (entry.1, f entry.1 entry.2)).lookup name =
    (m.entries.lookup name).map (f name)
  induction m.entries with
  | nil => rfl
  | cons entry entries ih =>
    rw [List.map_cons, List.lookup_cons, List.lookup_cons]
    cases h : name == entry.1 with
    | true => rw [beq_iff_eq.mp h]; rfl
    | false => exact ih

/-- What a change of the values leaves alone is read off the map as before. -/
theorem values_map_congr {β : Type u} {f : List Char → α → α} {g : α → β}
    (h : ∀ name value, g (f name value) = g value) : (m.map f).values.map g = m.values.map g := by
  unfold values map
  rw [List.map_map, List.map_map, List.map_map]
  exact List.map_congr_left fun entry _ => h entry.1 entry.2

theorem values_filterMap_congr {β : Type u} {f : List Char → α → α} {g : α → Option β}
    (h : ∀ name value, g (f name value) = g value) :
    (m.map f).values.filterMap g = m.values.filterMap g := by
  unfold values map
  rw [List.map_map, List.filterMap_map, List.filterMap_map]
  exact List.filterMap_congr fun entry _ => h entry.1 entry.2

/-- Maps with the same keys, side by side: the values of one name stand next to each other. -/
theorem mem_zip_iff {β : Type u} {m : NameMap α} {m' : NameMap β} (h : m.keys = m'.keys)
    {entry : List Char × α} {entry' : List Char × β} :
    (entry, entry') ∈ m.entries.zip m'.entries ↔
      entry ∈ m.entries ∧ entry' ∈ m'.entries ∧ entry.1 = entry'.1 := by
  have hnodup : (m.entries.map Prod.fst).Nodup := m.nodup_keys
  unfold keys at h
  generalize m.entries = entries at h hnodup ⊢
  generalize m'.entries = entries' at h ⊢
  induction entries generalizing entries' with
  | nil => simp
  | cons first entries ih =>
    cases entries' with
    | nil => simp at h
    | cons first' entries' =>
      rw [List.map_cons, List.map_cons, List.cons.injEq] at h
      obtain ⟨hfirst, hrest⟩ := h
      obtain ⟨hnot, hnodup⟩ := List.nodup_cons.mp hnodup
      have hnot' : first.1 ∉ entries'.map Prod.fst := hrest ▸ hnot
      have htail : (entry, entry') ∈ entries.zip entries' ↔
          entry ∈ entries ∧ entry' ∈ entries' ∧ entry.1 = entry'.1 := ih hnodup entries' hrest
      rw [List.zip_cons_cons, List.mem_cons, htail, Prod.mk.injEq, List.mem_cons, List.mem_cons]
      constructor
      · rintro (⟨rfl, rfl⟩ | ⟨hmem, hmem', hname⟩)
        · exact ⟨Or.inl rfl, Or.inl rfl, hfirst⟩
        · exact ⟨Or.inr hmem, Or.inr hmem', hname⟩
      · rintro ⟨rfl | hmem, rfl | hmem', hname⟩
        · exact Or.inl ⟨rfl, rfl⟩
        · exact absurd (List.mem_map.mpr ⟨_, hmem', hname.symm⟩) hnot'
        · exact absurd (List.mem_map.mpr ⟨_, hmem, hname.trans hfirst.symm⟩) hnot
        · exact Or.inr ⟨hmem, hmem', hname⟩

end NameMap
