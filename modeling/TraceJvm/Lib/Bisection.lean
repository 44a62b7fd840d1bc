import Mathlib.Tactic.Common

/-! Binary search with a verdict at each index: stop, or go on to the right or to the left. Nothing
is said about the order of what is searched. -/
namespace Bisection

open List

/-- The middle of the indices from `lo` on and below `hi`. -/
def middle (lo hi : ℕ) : ℕ := (lo + (hi - 1)) / 2

theorem le_middle {lo hi : ℕ} (h : lo < hi) : lo ≤ middle lo hi := by
  unfold middle
  omega

theorem middle_lt {lo hi : ℕ} (h : lo < hi) : middle lo hi < hi := by
  unfold middle
  omega

def bisect (v : ℕ → Ordering) (lo hi : ℕ) : Option ℕ :=
  if _h : lo < hi then
    match v (middle lo hi) with
    | .eq => some (middle lo hi)
    | .lt => bisect v (middle lo hi + 1) hi
    | .gt => bisect v lo (middle lo hi)
  else none
  termination_by hi - lo
  decreasing_by
    all_goals
      have hle := le_middle _h
      have hlt := middle_lt _h
      omega

/-- The indices that a search that ends at `j` looks at before. -/
def probes (lo hi j : ℕ) : List ℕ :=
  if h : lo < hi then
    if middle lo hi = j then []
    else if middle lo hi < j then middle lo hi :: probes (middle lo hi + 1) hi j
    else middle lo hi :: probes lo (middle lo hi) j
  else []
  termination_by hi - lo
  decreasing_by
    all_goals
      have hle := le_middle h
      have hlt := middle_lt h
      omega

/-- The verdict at `m` sends the search towards `j`. -/
def Towards (v : ℕ → Ordering) (j m : ℕ) : Prop := (m < j → v m = .lt) ∧ (j < m → v m = .gt)

variable {v : ℕ → Ordering} {lo hi j : ℕ}

theorem probes_right (h : lo < hi) (hj : middle lo hi < j) :
    probes lo hi j = middle lo hi :: probes (middle lo hi + 1) hi j := by
  rw [probes, dif_pos h, if_neg (Nat.ne_of_lt hj), if_pos hj]

theorem probes_left (h : lo < hi) (hj : j < middle lo hi) :
    probes lo hi j = middle lo hi :: probes lo (middle lo hi) j := by
  rw [probes, dif_pos h, if_neg (Nat.ne_of_gt hj), if_neg (Nat.not_lt_of_gt hj)]

theorem probes_middle (h : lo < hi) : probes lo hi (middle lo hi) = [] := by
  rw [probes, dif_pos h, if_pos rfl]

/-- A search ends at an index exactly if it stops there and each verdict before sends it there. -/
theorem bisect_eq_some_iff : bisect v lo hi = some j ↔
    lo ≤ j ∧ j < hi ∧ v j = .eq ∧ ∀ m ∈ probes lo hi j, Towards v j m := by
  fun_induction bisect v lo hi with
  | case1 lo hi hlt hstop =>
    have hle := le_middle hlt
    have hmid := middle_lt hlt
    rw [Option.some.injEq]
    constructor
    · intro heq
      rw [← heq, probes_middle hlt]
      exact ⟨hle, hmid, hstop, fun m hm => absurd hm not_mem_nil⟩
    · intro ⟨_, _, _, hprobes⟩
      rcases Nat.lt_trichotomy (middle lo hi) j with hright | heq | hleft
      · rw [probes_right hlt hright] at hprobes
        have hless := (hprobes _ mem_cons_self).1 hright
        rw [hstop] at hless
        cases hless
      · exact heq
      · rw [probes_left hlt hleft] at hprobes
        have hmore := (hprobes _ mem_cons_self).2 hleft
        rw [hstop] at hmore
        cases hmore
  | case2 lo hi hlt hless ih =>
    have hle := le_middle hlt
    rw [ih]
    constructor
    · intro ⟨hlo, hhi, hstop, hprobes⟩
      rw [probes_right hlt hlo]
      refine ⟨by omega, hhi, hstop, forall_mem_cons.mpr ⟨?_, hprobes⟩⟩
      exact ⟨fun _ => hless, fun hgt => absurd hgt (by omega)⟩
    · intro ⟨hlo, hhi, hstop, hprobes⟩
      rcases Nat.lt_trichotomy (middle lo hi) j with hright | heq | hleft
      · rw [probes_right hlt hright] at hprobes
        exact ⟨hright, hhi, hstop, (forall_mem_cons.mp hprobes).2⟩
      · rw [heq, hstop] at hless
        cases hless
      · rw [probes_left hlt hleft] at hprobes
        have hmore := (hprobes _ mem_cons_self).2 hleft
        rw [hless] at hmore
        cases hmore
  | case3 lo hi hlt hmore ih =>
    have hmid := middle_lt hlt
    rw [ih]
    constructor
    · intro ⟨hlo, hhi, hstop, hprobes⟩
      rw [probes_left hlt hhi]
      refine ⟨hlo, by omega, hstop, forall_mem_cons.mpr ⟨?_, hprobes⟩⟩
      exact ⟨fun hlt => absurd hlt (by omega), fun _ => hmore⟩
    · intro ⟨hlo, hhi, hstop, hprobes⟩
      rcases Nat.lt_trichotomy (middle lo hi) j with hright | heq | hleft
      · rw [probes_right hlt hright] at hprobes
        have hless := (hprobes _ mem_cons_self).1 hright
        rw [hmore] at hless
        cases hless
      · rw [heq, hstop] at hmore
        cases hmore
      · rw [probes_left hlt hleft] at hprobes
        exact ⟨hlo, hleft, hstop, (forall_mem_cons.mp hprobes).2⟩
  | case4 lo hi hge =>
    constructor
    · intro h
      cases h
    · intro ⟨hlo, hhi, _⟩
      omega

end Bisection
