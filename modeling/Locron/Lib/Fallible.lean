import Mathlib.Tactic

set_option autoImplicit false

/-! # Fallible computations

Taking a successful computation apart: what its parts must have returned.
-/

namespace Except

variable {ε α β : Type}

theorem map_eq_ok {f : α → β} {x : Except ε α} {y : β} :
    x.map f = .ok y ↔ ∃ a, x = .ok a ∧ f a = y := by
  cases x with
  | error | ok => simp [Except.map]

theorem bind_eq_ok {f : α → Except ε β} {x : Except ε α} {y : β} :
    (x >>= f) = .ok y ↔ ∃ a, x = .ok a ∧ f a = .ok y := by
  cases x with
  | error | ok => simp [Bind.bind, Except.bind]

/-- A check, and what comes after it. -/
theorem then_eq_ok {f : Unit → Except ε β} {x : Except ε Unit} {y : β} :
    (x >>= f) = .ok y ↔ x = .ok () ∧ f () = .ok y := by
  rw [bind_eq_ok]
  constructor
  · rintro ⟨_, hx, hf⟩
    exact ⟨hx, hf⟩
  · rintro ⟨hx, hf⟩
    exact ⟨(), hx, hf⟩

/-- A guard that rejects has not fired. -/
theorem guard_eq_ok {p : Prop} [Decidable p] {e : ε} {x : Except ε α} {y : α} :
    (if p then .error e else x) = .ok y ↔ ¬ p ∧ x = .ok y := by
  split
  · next h => simp [h]
  · next h => simp [h]

/-- A check with an error of its own. -/
def ensure (p : Prop) [Decidable p] (e : ε) : Except ε Unit := if p then .ok () else .error e

theorem ensure_eq_ok {p : Prop} [Decidable p] {e : ε} {u : Unit} : ensure p e = .ok u ↔ p := by
  unfold ensure
  split
  · next h => simp [h]
  · next h => simp [h]

/-- A computation for every element of a list. -/
def forEach (f : α → Except ε Unit) : List α → Except ε Unit
  | [] => .ok ()
  | x :: xs => do
      f x
      forEach f xs

theorem forEach_eq_ok {f : α → Except ε Unit} {xs : List α} {u : Unit} :
    forEach f xs = .ok u ↔ ∀ x ∈ xs, f x = .ok () := by
  induction xs with
  | nil => simp [forEach]
  | cons x xs ih =>
    rw [forEach, then_eq_ok, List.forall_mem_cons, ← ih]

/-- Two results agree: both computations fail, or their values are related. -/
def Agree {ε ε' α β : Type*} (R : α → β → Prop) : Except ε α → Except ε' β → Prop
  | .ok a, .ok b => R a b
  | .error _, .error _ => True
  | .ok _, .error _ => False
  | .error _, .ok _ => False

instance {ε ε' α β : Type*} (R : α → β → Prop) [∀ a b, Decidable (R a b)] :
    ∀ (x : Except ε α) (y : Except ε' β), Decidable (Agree R x y)
  | .ok a, .ok b => inferInstanceAs (Decidable (R a b))
  | .error _, .error _ => .isTrue trivial
  | .ok _, .error _ => .isFalse id
  | .error _, .ok _ => .isFalse id

instance decidableExistsOk {x : Except ε α} {p : α → Prop} [DecidablePred p] :
    Decidable (∃ a, x = .ok a ∧ p a) :=
  match x with
  | .ok a => decidable_of_iff (p a) (by simp)
  | .error _ => .isFalse (by simp)

instance decidableExistsError {x : Except ε α} {p : ε → Prop} [DecidablePred p] :
    Decidable (∃ e, x = .error e ∧ p e) :=
  match x with
  | .ok _ => .isFalse (by simp)
  | .error e => decidable_of_iff (p e) (by simp)

instance decidableForallOk {x : Except ε α} {p : α → Prop} [DecidablePred p] :
    Decidable (∀ a, x = .ok a → p a) :=
  match x with
  | .ok a => decidable_of_iff (p a) (by simp)
  | .error _ => .isTrue (by simp)

end Except

namespace Option

variable {α β : Type}

instance decidableExistsSome {x : Option α} {p : α → Prop} [DecidablePred p] :
    Decidable (∃ a, x = some a ∧ p a) :=
  match x with
  | some a => decidable_of_iff (p a) (by simp)
  | none => .isFalse (by simp)

instance decidableForallSome {x : Option α} {p : α → Prop} [DecidablePred p] :
    Decidable (∀ a, x = some a → p a) :=
  match x with
  | some a => decidable_of_iff (p a) (by simp)
  | none => .isTrue (by simp)

/-- `Option::ok_or_else`. -/
def okOr {ε : Type} (x : Option α) (e : ε) : Except ε α := x.elim (.error e) .ok

theorem okOr_eq_ok {ε : Type} {x : Option α} {e : ε} {a : α} : x.okOr e = .ok a ↔ x = some a := by
  cases x with
  | none | some => simp [okOr]

/-- Every result of a list of successful computations is the result of one of them. -/
theorem exists_of_mem_mapM {f : α → Option β} {xs : List α} {ys : List β}
    (h : xs.mapM f = some ys) {y : β} (hy : y ∈ ys) : ∃ x ∈ xs, f x = some y := by
  induction xs generalizing ys with
  | nil =>
    cases h
    cases hy
  | cons x xs ih =>
    rw [List.mapM_cons] at h
    obtain ⟨y₀, hy₀, h⟩ := Option.bind_eq_some_iff.mp h
    obtain ⟨rest, hrest, h⟩ := Option.bind_eq_some_iff.mp h
    cases h
    rcases List.mem_cons.mp hy with rfl | hy
    · exact ⟨x, List.mem_cons_self .., hy₀⟩
    · obtain ⟨x', hx', hf⟩ := ih hrest hy
      exact ⟨x', List.mem_cons_of_mem x hx', hf⟩

end Option
