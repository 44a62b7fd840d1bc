import Mathlib.Data.List.Basic

/-! Tables that give out the index of the first free slot. -/
namespace SlotTable

open List

variable {α : Type*}

/-- Fills the first free slot, or a new one where none is free, and returns its index. -/
def put : List (Option α) → α → List (Option α) × ℕ
  | [], x => ([some x], 0)
  | none :: ts, x => (some x :: ts, 0)
  | some y :: ts, x => (some y :: (put ts x).1, (put ts x).2 + 1)

def drop (ts : List (Option α)) (i : ℕ) : List (Option α) := ts.set i none

@[simp] theorem put_self (ts : List (Option α)) (x : α) :
    (put ts x).1[(put ts x).2]? = some (some x) := by
  induction ts with
  | nil => rfl
  | cons t ts ih =>
    cases t with
    | none => rfl
    | some y => simpa [put] using ih

theorem put_free (ts : List (Option α)) (x y : α) : ts[(put ts x).2]? ≠ some (some y) := by
  induction ts with
  | nil => simp [put]
  | cons t ts ih =>
    cases t with
    | none => simp [put]
    | some z => simpa [put] using ih

theorem put_occupied {ts : List (Option α)} {i : ℕ} {y : α} (h : ts[i]? = some (some y)) (x : α) :
    (put ts x).1[i]? = some (some y) := by
  induction ts generalizing i with
  | nil => simp at h
  | cons t ts ih =>
    cases i with
    | zero =>
      obtain rfl : t = some y := by simpa using h
      rfl
    | succ i =>
      have h' : ts[i]? = some (some y) := by simpa using h
      cases t with
      | none => simpa [put] using h'
      | some z => simpa [put] using ih h'

theorem drop_of_ne {ts : List (Option α)} {i j : ℕ} (h : i ≠ j) : (drop ts i)[j]? = ts[j]? := by
  simp [drop, h]

/-! ### Tables of a fixed size -/

def fill : List (Option α) → α → Option (List (Option α) × ℕ)
  | [], _ => none
  | none :: ts, x => some (some x :: ts, 0)
  | some y :: ts, x => (fill ts x).map fun r => (some y :: r.1, r.2 + 1)

def free (ts : List (Option α)) : ℕ := ts.countP Option.isNone

variable {ts ts' : List (Option α)}

theorem fill_eq {x : α} {i : ℕ} (h : fill ts x = some (ts', i)) :
    ts[i]? = some none ∧ ts' = ts.set i (some x) := by
  induction ts generalizing ts' i with
  | nil => cases h
  | cons t ts ih =>
    cases t with
    | none =>
      cases h
      exact ⟨rfl, rfl⟩
    | some y =>
      obtain ⟨⟨us, j⟩, hus, heq⟩ := Option.map_eq_some_iff.mp h
      cases heq
      obtain ⟨hfree, hset⟩ := ih hus
      refine ⟨hfree, ?_⟩
      dsimp only
      rw [hset]
      rfl

theorem fill_occupied {x y : α} {i j : ℕ}
    (h : fill ts x = some (ts', i)) (hj : ts[j]? = some (some y)) :
    i ≠ j ∧ ts'[j]? = some (some y) := by
  obtain ⟨hfree, rfl⟩ := fill_eq h
  have hne : i ≠ j := by
    rintro rfl
    rw [hfree] at hj
    cases hj
  refine ⟨hne, ?_⟩
  rw [getElem?_set_ne hne, hj]

theorem fill_self {x : α} {i : ℕ} (h : fill ts x = some (ts', i)) : ts'[i]? = some (some x) := by
  obtain ⟨hfree, rfl⟩ := fill_eq h
  obtain ⟨hi, -⟩ := List.getElem?_eq_some_iff.mp hfree
  exact getElem?_set_self hi

theorem free_fill {x : α} {i : ℕ} (h : fill ts x = some (ts', i)) : free ts = free ts' + 1 := by
  induction ts generalizing ts' i with
  | nil => cases h
  | cons t ts ih =>
    cases t with
    | none =>
      cases h
      simp [free]
    | some y =>
      obtain ⟨⟨us, j⟩, hus, heq⟩ := Option.map_eq_some_iff.mp h
      cases heq
      have hrest := ih hus
      simpa [free] using hrest

theorem fill_of_free {ts : List (Option α)} (h : 0 < free ts) (x : α) :
    ∃ ts' i, fill ts x = some (ts', i) := by
  induction ts with
  | nil => simp [free] at h
  | cons t ts ih =>
    cases t with
    | none => exact ⟨_, _, rfl⟩
    | some y =>
      have hrest : 0 < free ts := by simpa [free] using h
      obtain ⟨us, i, hus⟩ := ih hrest
      refine ⟨some y :: us, i + 1, ?_⟩
      show (fill ts x).map _ = _
      rw [hus]
      rfl

theorem drop_fill {x : α} {i : ℕ} (h : fill ts x = some (ts', i)) : drop ts' i = ts := by
  obtain ⟨hfree, rfl⟩ := fill_eq h
  show (ts.set i (some x)).set i none = ts
  rw [set_set]
  obtain ⟨hi, hget⟩ := List.getElem?_eq_some_iff.mp hfree
  rw [← hget]
  exact set_getElem_self hi

theorem drop_comm (ts : List (Option α)) (i j : ℕ) :
    drop (drop ts i) j = drop (drop ts j) i := by
  unfold drop
  rcases eq_or_ne i j with rfl | hne
  · rfl
  · exact set_comm _ _ hne

/-! ### Changed objects -/

theorem free_map (f : α → α) (ts : List (Option α)) : free (ts.map (Option.map f)) = free ts := by
  unfold free
  rw [countP_map]
  apply countP_congr
  intro t _
  cases t with
  | none => rfl
  | some x => rfl

theorem drop_map (f : α → α) (ts : List (Option α)) (i : ℕ) :
    drop (ts.map (Option.map f)) i = (drop ts i).map (Option.map f) := by
  unfold drop
  rw [map_set]
  rfl

end SlotTable
