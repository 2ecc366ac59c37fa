import Mathlib.Tactic

set_option autoImplicit false

/-! # Runs of a machine

A machine performs actions, each of which may be impossible in a state. Its runs are cut down by a
condition on the actions, which may look at the state: `Reaches` are the states of the runs whose
actions all meet the condition.
-/

namespace Runs

universe u v

variable {σ : Type u} {α : Type v}

/-- The states reached from a start state by allowed actions. -/
inductive Reaches (act : σ → α → Option σ) (allowed : σ → α → Prop) (start : σ → Prop) : σ → Prop
  | start {s : σ} (h : start s) : Reaches act allowed start s
  | step {s s' : σ} {a : α} (hs : Reaches act allowed start s) (ha : allowed s a)
      (h : act s a = some s') : Reaches act allowed start s'

section Rules

variable {act : σ → α → Option σ} {allowed : σ → α → Prop} {start : σ → Prop}

/-- **The invariant rule.** -/
theorem Reaches.invariant {motive : σ → Prop} (hstart : ∀ s, start s → motive s)
    (hstep : ∀ s a s', motive s → allowed s a → act s a = some s' → motive s') {s : σ}
    (h : Reaches act allowed start s) : motive s := by
  induction h with
  | start h => exact hstart _ h
  | step _ ha h ih => exact hstep _ _ _ ih ha h

/-- A run that begins where another one is. -/
theorem Reaches.trans {s s' : σ} (h : Reaches act allowed start s)
    (h' : Reaches act allowed (· = s) s') : Reaches act allowed start s' := by
  induction h' with
  | start hs => exact hs ▸ h
  | step _ ha hact ih => exact ih.step ha hact

end Rules

/-- Performs the actions one after the other, as long as each passes the check. -/
def perform (act : σ → α → Option σ) (check : σ → α → Bool) : List α → σ → Option σ
  | [], s => some s
  | a :: rest, s => if check s a then (act s a).bind (perform act check rest) else none

theorem Reaches.perform {act : σ → α → Option σ} {allowed : σ → α → Prop} {start : σ → Prop}
    {check : σ → α → Bool} (hcheck : ∀ s a, check s a = true → allowed s a) {actions : List α}
    {s s' : σ} (hs : Reaches act allowed start s) (h : perform act check actions s = some s') :
    Reaches act allowed start s' := by
  induction actions generalizing s with
  | nil =>
    cases h
    exact hs
  | cons a rest ih =>
    unfold Runs.perform at h
    obtain ⟨ha, h⟩ := Option.ite_none_right_eq_some.mp h
    obtain ⟨s₁, hact, h⟩ := Option.bind_eq_some_iff.mp h
    exact ih (hs.step (hcheck s a ha) hact) h

theorem exists_reaches {act : σ → α → Option σ} {allowed : σ → α → Prop} {start : σ → Prop}
    (check : σ → α → Bool) (hcheck : ∀ s a, check s a = true → allowed s a) (actions : List α)
    {s₀ : σ} (hstart : start s₀) (P : σ → Prop) [DecidablePred P]
    (h : (perform act check actions s₀).any (fun s => P s) = true) :
    ∃ s, Reaches act allowed start s ∧ P s := by
  obtain ⟨s, hs, hP⟩ := (Option.any_eq_true ..).mp h
  exact ⟨s, Reaches.perform hcheck (.start hstart) hs, of_decide_eq_true hP⟩

end Runs
