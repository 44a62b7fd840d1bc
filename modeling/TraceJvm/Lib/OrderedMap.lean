import Mathlib.Data.List.Basic

/-! Maps as lists of pairs in the order of insertion. -/
namespace OrderedMap

open List

variable {κ α : Type*} [DecidableEq κ]

def get : List (κ × α) → κ → Option α
  | [], _ => none
  | (k, v) :: m, k' => if k = k' then some v else get m k'

/-- Replaces the value of a key where it stands, or adds the key at the end. -/
def set : List (κ × α) → κ → α → List (κ × α)
  | [], k, v => [(k, v)]
  | (k', v') :: m, k, v => if k' = k then (k, v) :: m else (k', v') :: set m k v

def delete (m : List (κ × α)) (k : κ) : List (κ × α) := m.filter fun p => p.1 ≠ k

@[simp] theorem get_nil (k : κ) : get ([] : List (κ × α)) k = none := rfl

theorem get_set (m : List (κ × α)) (k k' : κ) (v : α) :
    get (set m k v) k' = if k = k' then some v else get m k' := by
  induction m with
  | nil => rfl
  | cons p m ih =>
    obtain ⟨q, w⟩ := p
    by_cases hq : q = k
    · subst hq
      simp only [set, if_true, get]
      split <;> rfl
    · simp only [set, if_neg hq, get, ih]
      by_cases hk : k = k'
      · subst hk
        simp [hq]
      · simp [hk]

@[simp] theorem get_set_self (m : List (κ × α)) (k : κ) (v : α) : get (set m k v) k = some v := by
  simp [get_set]

variable {m : List (κ × α)}

theorem get_set_of_ne {k k' : κ} {v : α} (h : k ≠ k') : get (set m k v) k' = get m k' := by
  simp [get_set, h]

theorem get_delete (m : List (κ × α)) (k k' : κ) :
    get (delete m k) k' = if k = k' then none else get m k' := by
  induction m with
  | nil => simp [delete]
  | cons p m ih =>
    obtain ⟨q, w⟩ := p
    by_cases hq : q = k
    · subst hq
      simp only [delete, filter_cons, ne_eq, not_true_eq_false, decide_false, if_false,
        Bool.false_eq_true] at ih ⊢
      rw [ih]
      by_cases hk : q = k'
      · simp [hk]
      · simp [get, hk]
    · simp only [delete, filter_cons, ne_eq, hq, not_false_eq_true, decide_true, if_true,
        get] at ih ⊢
      rw [ih]
      by_cases hk : k = k'
      · subst hk
        simp [hq]
      · simp [hk]

theorem mem_of_get {k : κ} {v : α} (h : get m k = some v) : (k, v) ∈ m := by
  induction m with
  | nil => cases h
  | cons p m ih =>
    obtain ⟨q, w⟩ := p
    simp only [get] at h
    split at h
    · rename_i hq
      cases h
      subst hq
      exact mem_cons_self
    · exact mem_cons_of_mem _ (ih h)

theorem get_of_mem {k : κ} {v : α} (hkeys : (m.map Prod.fst).Nodup)
    (h : (k, v) ∈ m) : get m k = some v := by
  induction m with
  | nil => cases h
  | cons p m ih =>
    obtain ⟨q, w⟩ := p
    rw [map_cons, nodup_cons] at hkeys
    rcases mem_cons.mp h with heq | hmem
    · cases heq
      exact if_pos rfl
    · have hq : q ≠ k := by
        rintro rfl
        exact hkeys.1 (mem_map.mpr ⟨(q, v), hmem, rfl⟩)
      show (if q = k then some w else get m k) = some v
      rw [if_neg hq]
      exact ih hkeys.2 hmem

theorem get_eq_none {k : κ} : get m k = none ↔ ∀ p ∈ m, p.1 ≠ k := by
  induction m with
  | nil => exact iff_of_true rfl fun p hp => absurd hp not_mem_nil
  | cons p m ih =>
    obtain ⟨q, w⟩ := p
    rw [forall_mem_cons, ← ih]
    show (if q = k then some w else get m k) = none ↔ q ≠ k ∧ get m k = none
    by_cases hq : q = k
    · simp [hq]
    · simp [hq]

theorem set_of_get_none {k : κ} (v : α) (h : get m k = none) : set m k v = m ++ [(k, v)] := by
  induction m with
  | nil => rfl
  | cons p m ih =>
    obtain ⟨q, w⟩ := p
    have hq : q ≠ k := get_eq_none.mp h _ mem_cons_self
    have hrest : get m k = none := by
      apply get_eq_none.mpr
      intro p hp
      exact get_eq_none.mp h p (mem_cons_of_mem _ hp)
    rw [set, if_neg hq, ih hrest]
    rfl

theorem get_map {β : Type*} (f : α → β) (m : List (κ × α)) (k : κ) :
    get (m.map fun p => (p.1, f p.2)) k = (get m k).map f := by
  induction m with
  | nil => rfl
  | cons p m ih =>
    obtain ⟨q, w⟩ := p
    show (if q = k then some (f w) else get (m.map fun p => (p.1, f p.2)) k) =
      (if q = k then some w else get m k).map f
    rw [ih]
    split <;> rfl

end OrderedMap
