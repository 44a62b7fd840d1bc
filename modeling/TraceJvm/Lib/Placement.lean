import Mathlib.Data.List.Basic
import Mathlib.Algebra.Order.Group.Nat

/-! Placing items one after another, each at the next multiple of its size. Items without a size
take up no room. -/
namespace Placement

/-- The least multiple of `n` that is at least `x`. -/
def alignUp (x n : ℕ) : ℕ := (x + n - 1) / n * n

theorem dvd_alignUp (x n : ℕ) : n ∣ alignUp x n := Nat.dvd_mul_left n _

theorem le_alignUp (x : ℕ) {n : ℕ} (hn : 0 < n) : x ≤ alignUp x n := by
  unfold alignUp
  have hdiv := Nat.div_add_mod (x + n - 1) n
  have hmod := Nat.mod_lt (x + n - 1) hn
  rw [Nat.mul_comm] at hdiv
  omega

theorem alignUp_of_dvd {x n : ℕ} (hn : 0 < n) (h : n ∣ x) : alignUp x n = x := by
  obtain ⟨k, rfl⟩ := h
  unfold alignUp
  have hdiv : (n * k + n - 1) / n = k := by
    rw [Nat.add_sub_assoc (by omega), Nat.mul_add_div hn, Nat.div_eq_of_lt (by omega), Nat.add_zero]
  rw [hdiv, Nat.mul_comm]

variable {ι : Type*} (size : ι → Option ℕ)

def advance (cur : ℕ) (i : ι) : ℕ :=
  match size i with
  | none => cur
  | some n => alignUp cur n + n

def cursor (base : ℕ) (js : List ι) : ℕ := js.foldl (advance size) base

/-- Where an item of `n` bytes at index `j` of the list is placed. -/
def start (base : ℕ) (js : List ι) (j n : ℕ) : ℕ := alignUp (cursor size base (js.take j)) n

variable {size} (hpos : ∀ i n, size i = some n → 0 < n) {base : ℕ} {js : List ι}

include hpos

theorem le_advance (cur : ℕ) (i : ι) : cur ≤ advance size cur i := by
  unfold advance
  split
  · exact le_rfl
  · rename_i n hn
    exact (le_alignUp cur (hpos i n hn)).trans (Nat.le_add_right _ n)

theorem le_cursor (base : ℕ) (js : List ι) : base ≤ cursor size base js := by
  induction js generalizing base with
  | nil => exact le_rfl
  | cons i js ih => exact (le_advance hpos base i).trans (ih (advance size base i))

theorem cursor_take_le {j k : ℕ} (h : j ≤ k) :
    cursor size base (js.take j) ≤ cursor size base (js.take k) := by
  obtain ⟨d, rfl⟩ := Nat.exists_eq_add_of_le h
  rw [List.take_add, cursor, cursor, List.foldl_append]
  exact le_cursor hpos _ _

omit hpos in
theorem cursor_take_succ {i : ι} {j n : ℕ} (hj : js[j]? = some i) (hn : size i = some n) :
    cursor size base (js.take (j + 1)) = start size base js j n + n := by
  rw [List.take_add_one, hj, cursor, List.foldl_append]
  simp [advance, hn, start, cursor]

theorem start_bounds {i : ι} {j n : ℕ} (hj : js[j]? = some i) (hn : size i = some n) :
    base ≤ start size base js j n ∧ start size base js j n + n ≤ cursor size base js := by
  constructor
  · exact (le_cursor hpos base (js.take j)).trans (le_alignUp _ (hpos i n hn))
  · rw [← cursor_take_succ hj hn]
    have hlt := (List.getElem?_eq_some_iff.mp hj).1
    have h : cursor size base (js.take (j + 1)) ≤ cursor size base (js.take js.length) :=
      cursor_take_le hpos (Nat.succ_le_of_lt hlt)
    rwa [List.take_length] at h

theorem start_ordered {a b : ι} {j k m n : ℕ} (hjk : j < k) (hj : js[j]? = some a)
    (hm : size a = some m) (hn : size b = some n) :
    start size base js j m + m ≤ start size base js k n := by
  rw [← cursor_take_succ hj hm]
  exact (cursor_take_le hpos hjk).trans (le_alignUp _ (hpos b n hn))

end Placement
