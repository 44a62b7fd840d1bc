import Mathlib.Data.List.Sort

/-! Quicksort in place with two indices that run towards each other. The upper index is given as one
past its element, and reading outside of the list gives `none`. -/
namespace HoareSort

open List

variable {α : Type*}

def swap (xs : List α) (i j : ℕ) : List α :=
  match xs[i]?, xs[j]? with
  | some x, some y => (xs.set i y).set j x
  | _, _ => xs

theorem swap_perm (xs : List α) (i j : ℕ) : (swap xs i j).Perm xs := by
  unfold swap
  split
  · rename_i x y hx hy
    obtain ⟨hi, rfl⟩ := List.getElem?_eq_some_iff.mp hx
    obtain ⟨hj, rfl⟩ := List.getElem?_eq_some_iff.mp hy
    exact set_set_perm hi hj
  · exact .refl xs

theorem swap_getElem? {xs : List α} {i j k : ℕ} {x y : α} (hi : xs[i]? = some x)
    (hj : xs[j]? = some y) :
    (swap xs i j)[k]? = if k = j then some x else if k = i then some y else xs[k]? := by
  have hilt := (List.getElem?_eq_some_iff.mp hi).1
  have hjlt := (List.getElem?_eq_some_iff.mp hj).1
  unfold swap
  rw [hi, hj]
  dsimp only
  rw [getElem?_set, getElem?_set, length_set]
  by_cases hkj : k = j
  · rw [if_pos hkj.symm, if_pos hkj, if_pos (hkj ▸ hjlt)]
  · rw [if_neg (Ne.symm hkj), if_neg hkj]
    by_cases hki : k = i
    · rw [if_pos hki.symm, if_pos hki, if_pos (hki ▸ hilt)]
    · rw [if_neg (Ne.symm hki), if_neg hki]

variable [LinearOrder α]

def scanLeft (xs : List α) (pivot : α) (left : ℕ) : Option ℕ :=
  if h : left < xs.length then
    if xs[left] < pivot then scanLeft xs pivot (left + 1) else some left
  else none
  termination_by xs.length - left

def scanRight (xs : List α) (pivot : α) : ℕ → Option ℕ
  | 0 => none
  | right + 1 =>
    match xs[right]? with
    | none => none
    | some x => if pivot < x then scanRight xs pivot right else some (right + 1)

def partition (pivot : α) : ℕ → List α → ℕ → ℕ → Option (List α × ℕ × ℕ)
  | 0, _, _, _ => none
  | fuel + 1, xs, left, right =>
    if left < right then
      (scanLeft xs pivot left).bind fun left => (scanRight xs pivot right).bind fun right =>
        if left < right then
          partition pivot fuel (swap xs left (right - 1)) (left + 1) (right - 1)
        else partition pivot fuel xs left right
    else some (xs, left, right)

/-- The two recursive calls sort the parts below and above the indices. -/
def quicksort : ℕ → List α → Option (List α)
  | 0, _ => none
  | fuel + 1, xs =>
    if xs.length ≤ 1 then some xs
    else
      (xs[xs.length / 2]?).bind fun pivot =>
        (partition pivot (xs.length + 2) xs 0 xs.length).bind fun p =>
          (quicksort fuel (p.1.take p.2.2)).bind fun low =>
            (quicksort fuel (p.1.drop p.2.1)).map fun high =>
              low ++ ((p.1.take p.2.1).drop p.2.2 ++ high)

variable {xs : List α} {pivot : α} {left right fuel : ℕ}

theorem scanLeft_spec {k : ℕ} {y : α} (hk : left ≤ k) (hy : xs[k]? = some y) (hle : pivot ≤ y) :
    ∃ l x, scanLeft xs pivot left = some l ∧ left ≤ l ∧ l ≤ k ∧ xs[l]? = some x ∧ pivot ≤ x ∧
      ∀ i x, left ≤ i → i < l → xs[i]? = some x → x ≤ pivot := by
  fun_induction scanLeft xs pivot left with
  | case1 left h hlt ih =>
    have hne : left ≠ k := by
      rintro rfl
      rw [getElem?_eq_getElem h] at hy
      cases hy
      exact absurd hlt (not_lt.mpr hle)
    obtain ⟨l, x, hl, hleft, hlk, hx, hpivot, hall⟩ := ih (by omega)
    refine ⟨l, x, hl, by omega, hlk, hx, hpivot, fun i z hi hil hz => ?_⟩
    by_cases heq : i = left
    · subst heq
      rw [getElem?_eq_getElem h] at hz
      cases hz
      exact hlt.le
    · exact hall i z (by omega) hil hz
  | case2 left h hge =>
    exact ⟨left, xs[left], rfl, le_rfl, hk, getElem?_eq_getElem h, not_lt.mp hge,
      fun i _ hi hil => absurd hi (by omega)⟩
  | case3 left h =>
    have hlt := (List.getElem?_eq_some_iff.mp hy).1
    omega

theorem scanRight_spec {k : ℕ} {y : α} (hk : k < right) (hright : right ≤ xs.length)
    (hy : xs[k]? = some y) (hle : y ≤ pivot) :
    ∃ r x, scanRight xs pivot right = some (r + 1) ∧ r < right ∧ k ≤ r ∧ xs[r]? = some x ∧
      x ≤ pivot ∧ ∀ i x, r < i → i < right → xs[i]? = some x → pivot ≤ x := by
  induction right with
  | zero => omega
  | succ right ih =>
    obtain ⟨z, hz⟩ : ∃ z, xs[right]? = some z := ⟨xs[right], getElem?_eq_getElem hright⟩
    rw [scanRight, hz]
    dsimp only
    by_cases hlt : pivot < z
    · have hne : k ≠ right := by
        rintro rfl
        rw [hz] at hy
        cases hy
        exact absurd hlt (not_lt.mpr hle)
      rw [if_pos hlt]
      obtain ⟨r, x, hr, hrr, hkr, hx, hpivot, hall⟩ := ih (by omega) (by omega)
      refine ⟨r, x, hr, by omega, hkr, hx, hpivot, fun i w hi hir hw => ?_⟩
      by_cases heq : i = right
      · subst heq
        rw [hz] at hw
        cases hw
        exact hlt.le
      · exact hall i w hi (by omega) hw
    · rw [if_neg hlt]
      exact ⟨right, z, rfl, Nat.lt_succ_self _, by omega, hz, not_lt.mp hlt,
        fun i _ hi hir => absurd hi (by omega)⟩

/-- Where the two indices stand: what is outside of them is on its side, and each finds an element
to stop at. -/
structure Parting (pivot : α) (xs : List α) (left right : ℕ) : Prop where
  inside : right ≤ xs.length
  below : ∀ i x, i < left → xs[i]? = some x → x ≤ pivot
  above : ∀ i x, right ≤ i → xs[i]? = some x → pivot ≤ x
  stopLeft : left < right → ∃ i x, left ≤ i ∧ xs[i]? = some x ∧ pivot ≤ x
  stopRight : left < right → ∃ i x, i < right ∧ xs[i]? = some x ∧ x ≤ pivot

/-- The parts that a partition leaves. -/
structure Parted (pivot : α) (xs : List α) (left right : ℕ) (p : List α × ℕ × ℕ) : Prop where
  perm : p.1.Perm xs
  crossed : p.2.2 ≤ p.2.1
  below : ∀ i x, i < p.2.1 → p.1[i]? = some x → x ≤ pivot
  above : ∀ i x, p.2.2 ≤ i → p.1[i]? = some x → pivot ≤ x
  left_le : left ≤ p.2.1
  le_right : p.2.2 ≤ right
  moved : ∀ i, left ≤ i → i < right → xs[i]? = some pivot → left < p.2.1 ∧ p.2.2 < right

theorem Parting.swap {l r : ℕ} {x w : α} (h : Parting pivot xs left right) (hcross : l ≤ r)
    (hr : r < right) (hx : xs[l]? = some x) (hxp : pivot ≤ x) (hw : xs[r]? = some w)
    (hwp : w ≤ pivot) (hbelow : ∀ i x, left ≤ i → i < l → xs[i]? = some x → x ≤ pivot)
    (habove : ∀ i x, r < i → i < right → xs[i]? = some x → pivot ≤ x) :
    Parting pivot (swap xs l r) (l + 1) r where
  inside := by
    rw [(swap_perm xs l r).length_eq]
    exact hr.le.trans h.inside
  below i y hi hy := by
    rw [swap_getElem? hx hw] at hy
    split_ifs at hy with hir hil
    · obtain rfl : l = r := by omega
      cases hx.symm.trans hw
      cases hy
      exact hwp
    · cases hy
      exact hwp
    · rcases Nat.lt_or_ge i left with hlt | hge
      · exact h.below i y hlt hy
      · exact hbelow i y hge (by omega) hy
  above i y hi hy := by
    rw [swap_getElem? hx hw] at hy
    split_ifs at hy with hir hil
    · cases hy
      exact hxp
    · omega
    · rcases Nat.lt_or_ge i right with hlt | hge
      · exact habove i y (by omega) hlt hy
      · exact h.above i y hge hy
  stopLeft hlt := ⟨r, x, hlt.le, by rw [swap_getElem? hx hw, if_pos rfl], hxp⟩
  stopRight hlt := ⟨l, w, by omega, by rw [swap_getElem? hx hw, if_neg (by omega), if_pos rfl], hwp⟩

theorem Parting.start {i : ℕ} (hi : i < xs.length) : Parting xs[i] xs 0 xs.length where
  inside := le_rfl
  below := nofun
  above _ _ hle hx := absurd (List.getElem?_eq_some_iff.mp hx).1 (not_lt.mpr hle)
  stopLeft _ := ⟨i, xs[i], Nat.zero_le i, getElem?_eq_getElem hi, le_rfl⟩
  stopRight _ := ⟨i, xs[i], hi, getElem?_eq_getElem hi, le_rfl⟩

theorem partition_parted (h : Parting pivot xs left right) (hpos : 0 < fuel)
    (hfuel : right + 1 < left + fuel) :
    ∃ p, partition pivot fuel xs left right = some p ∧ Parted pivot xs left right p := by
  induction fuel generalizing xs left right with
  | zero => exact absurd hpos (Nat.lt_irrefl 0)
  | succ fuel ih =>
    rw [partition]
    by_cases hlt : left < right
    · obtain ⟨i, y, hi, hy, hyp⟩ := h.stopLeft hlt
      obtain ⟨j, z, hj, hz, hzp⟩ := h.stopRight hlt
      obtain ⟨l, x, hl, hleft, -, hx, hxp, hbelow⟩ := scanLeft_spec hi hy hyp
      obtain ⟨r, w, hr, hright, -, hw, hwp, habove⟩ := scanRight_spec hj h.inside hz hzp
      rw [if_pos hlt, hl, Option.bind_some, hr, Option.bind_some]
      by_cases hcross : l < r + 1
      · have hnext := h.swap (Nat.le_of_lt_succ hcross) hright hx hxp hw hwp hbelow habove
        obtain ⟨p, hp, hparted⟩ := ih hnext (by omega) (by omega)
        have hl' := hparted.left_le
        have hr' := hparted.le_right
        rw [if_pos hcross, Nat.add_sub_cancel]
        exact ⟨p, hp, hparted.perm.trans (swap_perm xs l r), hparted.crossed, hparted.below,
          hparted.above, by omega, by omega, fun _ _ _ _ => ⟨by omega, by omega⟩⟩
      · have hnext : Parting pivot xs l (r + 1) := by
          refine ⟨by have := h.inside; omega, fun i x hi hx => ?_, fun i x hi hx => ?_,
            fun h => absurd h hcross, fun h => absurd h hcross⟩
          · rcases Nat.lt_or_ge i left with hlt | hge
            · exact h.below i x hlt hx
            · exact hbelow i x hge hi hx
          · rcases Nat.lt_or_ge i right with hlt | hge
            · exact habove i x hi hlt hx
            · exact h.above i x hge hx
        obtain ⟨p, hp, hparted⟩ := ih hnext (by omega) (by omega)
        have hl' := hparted.left_le
        have hr' := hparted.le_right
        rw [if_neg hcross]
        refine ⟨p, hp, hparted.perm, hparted.crossed, hparted.below, hparted.above, by omega,
          by omega, fun k hk hkr hpivot => ?_⟩
        -- both indices would have stopped at an element that is equal to the pivot
        obtain ⟨l', _, hl₂, -, hle, -⟩ := scanLeft_spec hk hpivot le_rfl
        obtain ⟨r', _, hr₂, -, hge, -⟩ := scanRight_spec hkr h.inside hpivot le_rfl
        cases hl.symm.trans hl₂
        cases hr.symm.trans hr₂
        omega
    · rw [if_neg hlt]
      exact ⟨_, rfl, .refl xs, not_lt.mp hlt, h.below, h.above, le_rfl, le_rfl,
        fun _ _ _ => absurd (by omega) hlt⟩

variable {p : List α × ℕ × ℕ}

theorem Parted.pieces (h : Parted pivot xs left right p) :
    p.1.take p.2.2 ++ ((p.1.take p.2.1).drop p.2.2 ++ p.1.drop p.2.1) = p.1 := by
  have hlow : p.1.take p.2.2 = (p.1.take p.2.1).take p.2.2 := by
    rw [take_take, Nat.min_eq_left h.crossed]
  rw [hlow, ← append_assoc, take_append_drop, take_append_drop]

theorem Parted.le_pivot (h : Parted pivot xs left right p) {x : α}
    (hx : x ∈ p.1.take p.2.1) : x ≤ pivot := by
  obtain ⟨i, hi, heq⟩ := mem_take_iff_getElem.mp hx
  exact h.below i x (by omega) (List.getElem?_eq_some_iff.mpr ⟨by omega, heq⟩)

theorem Parted.pivot_le (h : Parted pivot xs left right p) {x : α}
    (hx : x ∈ p.1.drop p.2.2) : pivot ≤ x := by
  obtain ⟨i, hi, heq⟩ := mem_drop_iff_getElem.mp hx
  exact h.above (p.2.2 + i) x (by omega) (List.getElem?_eq_some_iff.mpr ⟨by omega, heq⟩)

theorem Parted.sorted (h : Parted pivot xs left right p) {low high : List α}
    (hlow : low.Perm (p.1.take p.2.2)) (hhigh : high.Perm (p.1.drop p.2.1))
    (hlow' : low.Pairwise (· ≤ ·)) (hhigh' : high.Pairwise (· ≤ ·)) :
    (low ++ ((p.1.take p.2.1).drop p.2.2 ++ high)).Pairwise (· ≤ ·) := by
  have hleft : ∀ x ∈ low, x ≤ pivot := fun x hx =>
    h.le_pivot (take_subset_take_left p.1 h.crossed (hlow.mem_iff.mp hx))
  have hright : ∀ x ∈ high, pivot ≤ x := fun x hx =>
    h.pivot_le (drop_subset_drop_left p.1 h.crossed (hhigh.mem_iff.mp hx))
  have hmiddle : ∀ x ∈ (p.1.take p.2.1).drop p.2.2, x ≤ pivot ∧ pivot ≤ x := fun x hx =>
    ⟨h.le_pivot (mem_of_mem_drop hx), h.pivot_le (mem_of_mem_take (drop_take ▸ hx))⟩
  refine pairwise_append.mpr ⟨hlow', pairwise_append.mpr ⟨?_, hhigh', ?_⟩, ?_⟩
  · exact pairwise_of_forall_mem_list fun x hx y hy => (hmiddle x hx).1.trans (hmiddle y hy).2
  · exact fun x hx y hy => (hmiddle x hx).1.trans (hright y hy)
  · intro x hx y hy
    rcases mem_append.mp hy with hy | hy
    · exact (hleft x hx).trans (hmiddle y hy).2
    · exact (hleft x hx).trans (hright y hy)

/-- The sort ends with a sorted permutation. -/
theorem quicksort_sorted (hfuel : xs.length ≤ fuel) :
    ∃ ys, quicksort (fuel + 1) xs = some ys ∧ ys.Perm xs ∧ ys.Pairwise (· ≤ ·) := by
  induction fuel generalizing xs with
  | zero =>
    obtain rfl := length_eq_zero_iff.mp (Nat.le_zero.mp hfuel)
    exact ⟨[], rfl, .nil, .nil⟩
  | succ fuel ih =>
    rw [quicksort]
    by_cases hlen : xs.length ≤ 1
    · rw [if_pos hlen]
      refine ⟨xs, rfl, .refl xs, ?_⟩
      match xs, hlen with
      | [], _ => exact .nil
      | [x], _ => exact pairwise_singleton _ x
    · have hmiddle : xs.length / 2 < xs.length := by omega
      have hpivot := getElem?_eq_getElem hmiddle
      obtain ⟨p, hp, hparted⟩ := partition_parted (Parting.start hmiddle)
        (show 0 < xs.length + 2 by omega) (by omega)
      obtain ⟨hleft, hright⟩ := hparted.moved _ (Nat.zero_le _) hmiddle hpivot
      have hsame := hparted.perm.length_eq
      obtain ⟨low, hlow, hlowPerm, hlowSorted⟩ := ih (show (p.1.take p.2.2).length ≤ fuel by
        rw [length_take]
        omega)
      obtain ⟨high, hhigh, hhighPerm, hhighSorted⟩ := ih (show (p.1.drop p.2.1).length ≤ fuel by
        rw [length_drop]
        omega)
      rw [if_neg hlen, hpivot, Option.bind_some, hp, Option.bind_some, hlow, Option.bind_some,
        hhigh, Option.map_some]
      refine ⟨_, rfl, ?_, hparted.sorted hlowPerm hhighPerm hlowSorted hhighSorted⟩
      refine .trans ?_ (hparted.pieces ▸ hparted.perm)
      exact hlowPerm.append (hhighPerm.append_left _)

end HoareSort
