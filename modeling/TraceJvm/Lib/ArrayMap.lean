import Mathlib.Data.List.Induction
import Mathlib.Data.List.Nodup
import Mathlib.Data.List.Perm.Basic
import TraceJvm.Lib.OrderedMap

/-! Maps in the first places of an array, in no particular order: an entry is added at the end, and
the last entry takes the place of one that is removed. -/
namespace ArrayMap

open OrderedMap List

variable {κ α : Type*}

/-- `entries[index] = entries[--count]` -/
def swapRemove (es : List (κ × α)) (i : ℕ) : List (κ × α) :=
  match es.getLast? with
  | none => es
  | some last => (es.set i last).dropLast

def Distinct (es : List (κ × α)) : Prop := (es.map Prod.fst).Nodup

variable {es : List (κ × α)} {i : ℕ} {k : κ} {v : α}

/-- The other entries are left, in some order. -/
theorem swapRemove_perm (h : es[i]? = some (k, v)) : (swapRemove es i).Perm (es.eraseIdx i) := by
  obtain ⟨hi, -⟩ := List.getElem?_eq_some_iff.mp h
  induction es using List.reverseRecOn with
  | nil => exact absurd hi (Nat.not_lt_zero i)
  | append_singleton init last _ =>
    rw [length_append, length_singleton] at hi
    have hlast : swapRemove (init ++ [last]) i = ((init ++ [last]).set i last).dropLast := by
      unfold swapRemove
      rw [getLast?_concat]
    rw [hlast]
    rcases Nat.lt_or_ge i init.length with hlt | hge
    · rw [set_append_left i last hlt, dropLast_concat, eraseIdx_append_of_lt_length hlt]
      exact (set_perm_cons_eraseIdx hlt last).trans (perm_append_singleton _ _).symm
    · obtain rfl : i = init.length := by omega
      rw [set_append_right _ _ (Nat.le_refl _), Nat.sub_self, set_cons_zero,
        dropLast_concat, eraseIdx_append_of_length_le (Nat.le_refl _), Nat.sub_self]
      exact List.Perm.of_eq (append_nil init).symm

theorem length_swapRemove (h : es[i]? = some (k, v)) :
    (swapRemove es i).length + 1 = es.length := by
  obtain ⟨hi, -⟩ := List.getElem?_eq_some_iff.mp h
  rw [(swapRemove_perm h).length_eq, length_eraseIdx_of_lt hi]
  omega

theorem distinct_swapRemove (h : es[i]? = some (k, v)) (hes : Distinct es) :
    Distinct (swapRemove es i) := by
  have hperm := (swapRemove_perm h).map Prod.fst
  exact hperm.nodup_iff.mpr (List.Nodup.sublist ((eraseIdx_sublist es i).map _) hes)

theorem mem_swapRemove (h : es[i]? = some (k, v)) (hes : Distinct es) (p : κ × α) :
    p ∈ swapRemove es i ↔ p ∈ es ∧ p.1 ≠ k := by
  rw [(swapRemove_perm h).mem_iff, mem_eraseIdx_iff_getElem?]
  constructor
  · rintro ⟨j, hne, hj⟩
    refine ⟨mem_of_getElem? hj, fun hkey => hne ?_⟩
    have hi' : (es.map Prod.fst)[i]? = some k := by rw [getElem?_map, h]; rfl
    have hj' : (es.map Prod.fst)[j]? = some k := by rw [getElem?_map, hj, ← hkey]; rfl
    obtain ⟨hji, -⟩ := List.getElem?_eq_some_iff.mp hj'
    exact (getElem?_inj hji hes).mp (hj'.trans hi'.symm)
  · rintro ⟨hmem, hkey⟩
    obtain ⟨j, hj⟩ := getElem?_of_mem hmem
    refine ⟨j, ?_, hj⟩
    rintro rfl
    rw [h] at hj
    exact hkey (congrArg Prod.fst (Option.some.inj hj)).symm

theorem keys_set (h : es[i]? = some (k, v)) (w : α) :
    (es.set i (k, w)).map Prod.fst = es.map Prod.fst := by
  rw [map_set]
  have hi : (es.map Prod.fst)[i]? = some k := by rw [getElem?_map, h]; rfl
  obtain ⟨hlt, heq⟩ := List.getElem?_eq_some_iff.mp hi
  conv_rhs => rw [← set_getElem_self hlt, heq]

theorem distinct_set (h : es[i]? = some (k, v)) (hes : Distinct es) (w : α) :
    Distinct (es.set i (k, w)) := by
  unfold Distinct
  rw [keys_set h]
  exact hes

variable [DecidableEq κ]

def indexOf (es : List (κ × α)) (k : κ) : Option ℕ := es.findIdx? fun e => e.1 = k

theorem indexOf_eq_none : indexOf es k = none ↔ get es k = none := by
  unfold indexOf
  rw [findIdx?_eq_none_iff, get_eq_none]
  exact forall₂_congr fun p _ => by simp

theorem indexOf_eq_some (h : indexOf es k = some i) : ∃ v, es[i]? = some (k, v) := by
  unfold indexOf at h
  obtain ⟨hi, hkey, -⟩ := findIdx?_eq_some_iff_getElem.mp h
  refine ⟨es[i].2, ?_⟩
  have hk : es[i].1 = k := of_decide_eq_true hkey
  rw [getElem?_eq_getElem hi, ← hk]

theorem get_swapRemove (h : es[i]? = some (k, v)) (hes : Distinct es) (k' : κ) :
    get (swapRemove es i) k' = if k = k' then none else get es k' := by
  have hmem := mem_swapRemove h hes
  have hdistinct := distinct_swapRemove h hes
  split_ifs with hk
  · apply get_eq_none.mpr
    intro p hp
    exact hk ▸ ((hmem p).mp hp).2
  · cases hget : get es k' with
    | none =>
      apply get_eq_none.mpr
      intro p hp
      exact get_eq_none.mp hget p ((hmem p).mp hp).1
    | some w =>
      apply get_of_mem hdistinct
      exact (hmem (k', w)).mpr ⟨mem_of_get hget, fun heq => hk heq.symm⟩

theorem get_set_index (h : es[i]? = some (k, v)) (hes : Distinct es) (w : α) (k' : κ) :
    get (es.set i (k, w)) k' = if k = k' then some w else get es k' := by
  have hdistinct := distinct_set h hes w
  obtain ⟨hi, -⟩ := List.getElem?_eq_some_iff.mp h
  split_ifs with hk
  · subst hk
    exact get_of_mem hdistinct (mem_of_getElem? (getElem?_set_self hi))
  · cases hget : get es k' with
    | none =>
      apply get_eq_none.mpr
      intro p hp
      rcases mem_or_eq_of_mem_set hp with hp | rfl
      · exact get_eq_none.mp hget p hp
      · exact hk
    | some x =>
      apply get_of_mem hdistinct
      obtain ⟨j, hj⟩ := getElem?_of_mem (mem_of_get hget)
      have hne : i ≠ j := by
        rintro rfl
        rw [h] at hj
        exact hk (congrArg Prod.fst (Option.some.inj hj))
      exact mem_of_getElem? ((getElem?_set_ne hne).trans hj)

theorem distinct_append (h : get es k = none) (hes : Distinct es) (w : α) :
    Distinct (es ++ [(k, w)]) := by
  unfold Distinct
  rw [map_append, nodup_append]
  refine ⟨hes, nodup_singleton _, ?_⟩
  intro a ha b hb
  obtain ⟨p, hp, rfl⟩ := mem_map.mp ha
  obtain rfl : b = k := by simpa using hb
  exact get_eq_none.mp h p hp

theorem get_append (h : get es k = none) (w : α) (k' : κ) :
    get (es ++ [(k, w)]) k' = if k = k' then some w else get es k' := by
  rw [← set_of_get_none w h, get_set]

end ArrayMap
