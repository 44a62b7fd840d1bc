import Mathlib.Tactic.Common

/-! Computations that may fail, and the relation between two of them whose failures correspond. -/
namespace Outcome

universe u v w x

variable {ε : Type u} {δ : Type v} {α γ : Type w} {β η : Type x}

theorem ok_bind (a : α) (f : α → Except ε γ) : (Except.ok a >>= f) = f a := rfl

variable {x : Except ε α}

theorem bind_eq_ok {f : α → Except ε γ} {b : γ} :
    (x >>= f) = .ok b ↔ ∃ a, x = .ok a ∧ f a = .ok b := by
  cases x with
  | error e =>
    constructor
    · intro h
      cases h
    · rintro ⟨a, ha, -⟩
      cases ha
  | ok a =>
    constructor
    · intro h
      exact ⟨a, rfl, h⟩
    · rintro ⟨a', ha, h⟩
      cases ha
      exact h

theorem mapM_cons_ok {f : β → Except ε α} {x : β} {xs : List β} {ys : List α}
    (h : (x :: xs).mapM f = .ok ys) : ∃ z zs, f x = .ok z ∧ xs.mapM f = .ok zs ∧ ys = z :: zs := by
  rw [List.mapM_cons] at h
  obtain ⟨z, hz, h⟩ := bind_eq_ok.mp h
  obtain ⟨zs, hzs, h⟩ := bind_eq_ok.mp h
  exact ⟨z, zs, hz, hzs, (Except.ok.inj h).symm⟩

theorem mapM_ok {f : β → Except ε α} {xs : List β} {ys : List α} (h : xs.mapM f = .ok ys) :
    List.Forall₂ (fun x y => f x = .ok y) xs ys := by
  induction xs generalizing ys with
  | nil =>
    cases h
    exact .nil
  | cons x xs ih =>
    obtain ⟨z, zs, hz, hzs, rfl⟩ := mapM_cons_ok h
    exact .cons hz (ih hzs)

/-- Both succeed with related results, or both fail, the second one with the translated error. -/
def Mirrors (translate : ε → δ) (R : α → β → Prop) : Except ε α → Except δ β → Prop
  | .ok a, .ok b => R a b
  | .error e, .error d => d = translate e
  | _, _ => False

variable {R : α → β → Prop} {translate : ε → δ}

theorem Mirrors.bind {S : γ → η → Prop} {y : Except δ β} {f : α → Except ε γ} {g : β → Except δ η}
    (h : Mirrors translate R x y)
    (hfg : ∀ a b, x = .ok a → R a b → Mirrors translate S (f a) (g b)) :
    Mirrors translate S (x >>= f) (y >>= g) := by
  cases x with
  | error e =>
    cases y with
    | error d => exact h
    | ok b => exact h.elim
  | ok a =>
    cases y with
    | error d => exact h.elim
    | ok b => exact hfg a b rfl h

theorem Mirrors.of_ok {a : α} {y : Except δ β}
    (h : Mirrors translate R (.ok a) y) : ∃ b, y = .ok b ∧ R a b := by
  cases y with
  | error d => exact h.elim
  | ok b => exact ⟨b, rfl, h⟩

theorem Mirrors.ok_of {b : β} (h : Mirrors translate R x (.ok b)) : ∃ a, x = .ok a ∧ R a b := by
  cases x with
  | error e => exact h.elim
  | ok a => exact ⟨a, rfl, h⟩

theorem Mirrors.error_of {d : δ} (h : Mirrors translate R x (.error d)) : ∃ e, d = translate e := by
  cases x with
  | error e => exact ⟨e, h⟩
  | ok a => exact h.elim

end Outcome
