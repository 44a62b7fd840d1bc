import Mathlib.Data.List.Basic

/-! Machines that answer each input and go to a next state, compared with a function that answers
each input on its own. -/
namespace Mealy

variable {S I O : Type*} {step : S → I → O × S} {f g : I → O} {s s' : S}

def outputs (step : S → I → O × S) : S → List I → List O
  | _, [] => []
  | s, x :: xs => (step s x).1 :: outputs step (step s x).2 xs

theorem outputs_cons_congr {x : I} {xs : List I} (h : step s x = step s' x) :
    outputs step s (x :: xs) = outputs step s' (x :: xs) := by
  rw [outputs, outputs, h]

theorem outputs_cons_eq_iff {x : I} {xs : List I} (h : step s x = (g x, s')) :
    outputs step s (x :: xs) = (x :: xs).map g ↔ outputs step s' xs = xs.map g := by
  rw [outputs, h, List.map_cons, List.cons.injEq]
  exact and_iff_right rfl

theorem outputs_eq_map (h : ∀ x, step s x = (f x, s)) (xs : List I) :
    outputs step s xs = xs.map f := by
  induction xs with
  | nil => rfl
  | cons x xs ih => exact (outputs_cons_eq_iff (h x)).mpr ih

theorem outputs_eq_map_iff (h : ∀ x, step s x = (f x, s)) (xs : List I) :
    outputs step s xs = xs.map g ↔ ∀ x ∈ xs, f x = g x := by
  rw [outputs_eq_map h]
  exact List.map_inj_left

theorem outputs_eq_map_iff_dropWhile {p : I → Bool} (h : ∀ x, p x = true → step s x = (g x, s))
    (hleave : ∀ x, p x = false → step s x = step s' x) (xs : List I) :
    outputs step s xs = xs.map g ↔
      outputs step s' (xs.dropWhile p) = (xs.dropWhile p).map g := by
  induction xs with
  | nil => exact ⟨fun _ => rfl, fun _ => rfl⟩
  | cons x xs ih =>
    cases hp : p x with
    | true =>
      rw [List.dropWhile_cons_of_pos hp, outputs_cons_eq_iff (h x hp)]
      exact ih
    | false =>
      rw [List.dropWhile_cons_of_neg (by simp [hp]), outputs_cons_congr (hleave x hp)]

end Mealy
