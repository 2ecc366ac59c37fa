import Mathlib.Tactic

set_option autoImplicit false

/-! # Strings that are read piece by piece

A reader with a state takes one piece off the front of a string at a time, until nothing is left or
a piece is refused. If a piece can be told from what follows it (`Scanner.piece`) and is no part of
another piece (`Scanner.torn`), then a string is accepted exactly if it is cut into pieces
(`Scanner.scan_eq_ok`), and of all its prefixes exactly those that end between two pieces are
accepted (`Scanner.scan_take`).
-/

namespace Pieces

universe u v w

/-- A reader with states `σ`. -/
structure Scanner (σ : Type u) (β : Type v) (ε : Type w) where
  /-- takes a piece off the string -/
  next : σ → List β → Except ε (σ × List β)
  /-- What is taken is not empty, and does not depend on what follows. -/
  piece : ∀ {s l s' rest}, next s l = .ok (s', rest) →
    ∃ p, p ≠ [] ∧ l = p ++ rest ∧ ∀ rest', next s (p ++ rest') = .ok (s', rest')
  /-- A part of a piece is refused. -/
  torn : ∀ {s p s'}, next s p = .ok (s', []) → ∀ n, n < p.length → ∃ e, next s (p.take n) = .error e
  /-- the error of a string that is longer than the fuel, which does not occur -/
  exhausted : ε

namespace Scanner

variable {σ : Type u} {β : Type v} {ε : Type w} (c : Scanner σ β ε)

/-- Reads pieces until nothing is left. -/
def scanWith : Nat → σ → List β → Except ε σ
  | _, s, [] => .ok s
  | 0, _, _ :: _ => .error c.exhausted
  | fuel + 1, s, b :: l =>
    match c.next s (b :: l) with
    | .error e => .error e
    | .ok (s', rest) => scanWith fuel s' rest

/-- Reads the whole string. -/
def scan (s : σ) (l : List β) : Except ε σ := c.scanWith l.length s l

/-- The pieces are read one after the other, from the first state to the last. -/
inductive Cuts : σ → List (List β) → σ → Prop
  | nil (s : σ) : Cuts s [] s
  | cons {s s₁ s' : σ} {p : List β} {ps : List (List β)} (hp : c.next s p = .ok (s₁, []))
      (hps : Cuts s₁ ps s') : Cuts s (p :: ps) s'

variable {c} {s s' : σ} {p l : List β} {ps : List (List β)}

/-- A whole piece is taken off whatever follows it. -/
theorem next_append (h : c.next s p = .ok (s', [])) (rest : List β) :
    c.next s (p ++ rest) = .ok (s', rest) := by
  obtain ⟨q, -, heq, hnext⟩ := c.piece h
  rw [List.append_nil] at heq
  rw [heq]
  exact hnext rest

theorem next_shorter {rest : List β} (h : c.next s l = .ok (s', rest)) :
    rest.length < l.length := by
  obtain ⟨p, hne, rfl, -⟩ := c.piece h
  have hpos := List.length_pos_iff.mpr hne
  rw [List.length_append]
  omega

/-- Enough fuel is enough. -/
theorem scanWith_eq {fuel fuel' : Nat} (h : l.length ≤ fuel) (h' : l.length ≤ fuel') :
    c.scanWith fuel s l = c.scanWith fuel' s l := by
  induction fuel generalizing fuel' s l with
  | zero =>
    cases l with
    | nil => cases fuel' <;> rfl
    | cons b l => simp at h
  | succ fuel ih =>
    cases l with
    | nil => cases fuel' <;> rfl
    | cons b l =>
      cases fuel' with
      | zero => simp at h'
      | succ fuel' =>
        simp only [scanWith]
        cases hnext : c.next s (b :: l) with
        | error e => rfl
        | ok x =>
          have hshorter := c.next_shorter hnext
          exact ih (by omega) (by omega)

theorem scan_nil : c.scan s [] = .ok s := rfl

theorem scan_of_next {rest : List β} (h : c.next s l = .ok (s', rest)) :
    c.scan s l = c.scan s' rest := by
  have hshorter := c.next_shorter h
  cases l with
  | nil => simp at hshorter
  | cons b l =>
    unfold scan
    rw [List.length_cons, scanWith, h]
    exact scanWith_eq (by simp at hshorter; omega) le_rfl

theorem scan_of_error {e : ε} (hne : l ≠ []) (h : c.next s l = .error e) :
    c.scan s l = .error e := by
  cases l with
  | nil => exact absurd rfl hne
  | cons b l =>
    unfold scan
    rw [List.length_cons, scanWith, h]

/-- A string that is cut into pieces is accepted, and so is what follows it from there on. -/
theorem Cuts.scan_append (h : c.Cuts s ps s') (rest : List β) :
    c.scan s (ps.flatten ++ rest) = c.scan s' rest := by
  induction h with
  | nil s => rfl
  | cons hp _ ih =>
    rw [List.flatten_cons, List.append_assoc, scan_of_next (next_append hp _)]
    exact ih

/-- **Exactly the strings that are cut into pieces are accepted.** -/
theorem scan_eq_ok : c.scan s l = .ok s' ↔ ∃ ps, c.Cuts s ps s' ∧ l = ps.flatten := by
  constructor
  · intro h
    induction hlength : l.length using Nat.strongRecOn generalizing s l with
    | ind n ih =>
      cases l with
      | nil =>
        cases h
        exact ⟨[], .nil _, rfl⟩
      | cons b l =>
        cases hnext : c.next s (b :: l) with
        | error e =>
          rw [scan_of_error (List.cons_ne_nil b l) hnext] at h
          cases h
        | ok x =>
          obtain ⟨s₁, rest⟩ := x
          obtain ⟨p, -, heq, hpiece⟩ := c.piece hnext
          have hshorter := c.next_shorter hnext
          rw [scan_of_next hnext] at h
          obtain ⟨ps, hcuts, hrest⟩ := ih rest.length (by omega) h rfl
          have hp : c.next s p = .ok (s₁, []) := by
            rw [← List.append_nil p]
            exact hpiece []
          exact ⟨p :: ps, .cons hp hcuts, by rw [heq, hrest, List.flatten_cons]⟩
  · rintro ⟨ps, hcuts, rfl⟩
    rw [← List.append_nil ps.flatten, hcuts.scan_append, scan_nil]

theorem Cuts.append {s₁ : σ} {ps' : List (List β)} (h : c.Cuts s ps s₁) (h' : c.Cuts s₁ ps' s') :
    c.Cuts s (ps ++ ps') s' := by
  induction h with
  | nil s => exact h'
  | cons hp _ ih => exact .cons hp (ih h')

/-- Between two pieces there is a state. -/
theorem Cuts.split (h : c.Cuts s ps s') (k : Nat) :
    ∃ s₁, c.Cuts s (ps.take k) s₁ ∧ c.Cuts s₁ (ps.drop k) s' := by
  induction h generalizing k with
  | nil s =>
    rw [List.take_nil, List.drop_nil]
    exact ⟨s, .nil s, .nil s⟩
  | @cons s _ _ _ _ hp hps ih =>
    cases k with
    | zero => exact ⟨s, .nil s, .cons hp hps⟩
    | succ k =>
      obtain ⟨s₁, hfirst, hlater⟩ := ih k
      exact ⟨s₁, .cons hp hfirst, hlater⟩

/-- **Of the prefixes of a cut string, those that end within a piece are refused.** -/
theorem Cuts.scan_take (h : c.Cuts s ps s') (n : Nat) (hn : n ≤ ps.flatten.length) :
    (∃ k ≤ ps.length, n = (ps.take k).flatten.length) ∨
      ∃ e, c.scan s (ps.flatten.take n) = .error e := by
  induction h generalizing n with
  | nil s => exact Or.inl ⟨0, le_rfl, by simpa using hn⟩
  | @cons s s₁ s' p ps hp hps ih =>
    rw [List.flatten_cons, List.length_append] at hn
    rcases Nat.lt_or_ge n p.length with hlt | hge
    · rcases Nat.eq_zero_or_pos n with rfl | hpos
      · exact Or.inl ⟨0, Nat.zero_le _, rfl⟩
      -- the cut goes through the first piece
      right
      obtain ⟨e, he⟩ := c.torn hp n hlt
      have hne : p.take n ≠ [] := by
        intro hnil
        have := congrArg List.length hnil
        rw [List.length_take, List.length_nil] at this
        omega
      refine ⟨e, ?_⟩
      rw [List.flatten_cons, List.take_append_of_le_length hlt.le]
      exact scan_of_error hne he
    · have htake : (p ++ ps.flatten).take n = p ++ ps.flatten.take (n - p.length) := by
        rw [List.take_append, List.take_of_length_le hge]
      rcases ih (n - p.length) (by omega) with ⟨k, hk, heq⟩ | ⟨e, he⟩
      · refine Or.inl ⟨k + 1, by simpa using hk, ?_⟩
        rw [List.take_succ_cons, List.flatten_cons, List.length_append]
        omega
      refine Or.inr ⟨e, ?_⟩
      rw [List.flatten_cons, htake, scan_of_next (next_append hp _)]
      exact he

end Scanner

end Pieces
