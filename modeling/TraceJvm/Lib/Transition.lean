import Mathlib.Data.List.Basic

/-! Partial labelled transition functions, their finite runs and the invariant rule.
A run may be restricted by a condition on the state before each step. -/
namespace Transition

open Option

variable {σ α : Type*}

/-- Executes a word of labels, stopping at the first label that is not enabled. -/
def run (step : σ → α → Option σ) (s : σ) : List α → Option σ
  | [] => some s
  | a :: as => (step s a).bind fun s' => run step s' as

/-- States reached from `s` by steps each of which satisfies `ok` where it is taken. -/
inductive Runs (step : σ → α → Option σ) (ok : σ → α → Prop) (s : σ) : σ → Prop where
  | refl : Runs step ok s s
  | tail {u v : σ} {a : α} : Runs step ok s u → ok u a → step u a = some v → Runs step ok s v

abbrev Reachable (step : σ → α → Option σ) (s : σ) : σ → Prop :=
  Runs step (fun _ _ => True) s

variable {step : σ → α → Option σ} {ok ok' : σ → α → Prop} {s u : σ}

theorem Runs.invariant (h : Runs step ok s u) (Inv : σ → Prop) (init : Inv s)
    (keep : ∀ v a w, Inv v → ok v a → step v a = some w → Inv w) : Inv u := by
  induction h with
  | refl => exact init
  | tail _ hok hstep ih => exact keep _ _ _ ih hok hstep

theorem Runs.mono (h : Runs step ok s u) (himp : ∀ v a, ok v a → ok' v a) :
    Runs step ok' s u := by
  induction h with
  | refl => exact .refl
  | tail _ hok hstep ih => exact ih.tail (himp _ _ hok) hstep

theorem Runs.reachable (h : Runs step ok s u) : Reachable step s u :=
  h.mono fun _ _ _ => trivial

theorem Runs.trans {v : σ} (h : Runs step ok s u) (k : Runs step ok u v) :
    Runs step ok s v := by
  induction k with
  | refl => exact h
  | tail _ hok hstep ih => exact ih.tail hok hstep

/-- Executes a word of labels and stops as well where the condition fails. -/
def checkedRun (step : σ → α → Option σ) (ok : σ → α → Bool) (s : σ) : List α → Option σ
  | [] => some s
  | a :: as => if ok s a then (step s a).bind fun s' => checkedRun step ok s' as else none

variable {w : List α}

theorem runs_of_checkedRun {ok : σ → α → Bool}
    (h : checkedRun step ok s w = some u) : Runs step (fun v a => ok v a = true) s u := by
  induction w generalizing s with
  | nil =>
    obtain rfl : s = u := by simpa [checkedRun] using h
    exact .refl
  | cons a as ih =>
    simp only [checkedRun] at h
    split at h
    · rename_i hok
      obtain ⟨v, hv, hrest⟩ := bind_eq_some_iff.mp h
      have hfirst : Runs step (fun v a => ok v a = true) s v := Runs.refl.tail hok hv
      exact hfirst.trans (ih hrest)
    · cases h

theorem reachable_of_run (h : run step s w = some u) : Reachable step s u := by
  induction w generalizing s with
  | nil =>
    obtain rfl : s = u := by simpa [run] using h
    exact .refl
  | cons a as ih =>
    obtain ⟨v, hv, hrest⟩ := bind_eq_some_iff.mp h
    exact (Runs.refl.tail trivial hv).trans (ih hrest)

theorem run_append (u v : List α) :
    run step s (u ++ v) = (run step s u).bind fun s' => run step s' v := by
  induction u generalizing s with
  | nil => rfl
  | cons a u ih =>
    rw [List.cons_append, run, run, bind_assoc]
    exact congrArg _ (funext fun _ => ih)

/-- Every step of the word satisfies `ok` where it is taken. -/
def Along (step : σ → α → Option σ) (ok : σ → α → Prop) (s : σ) (w : List α) : Prop :=
  ∀ before a after u, w = before ++ a :: after → run step s before = some u → ok u a

theorem along_cons {v : σ} {a : α} {as : List α} (hstep : step s a = some v) :
    Along step ok s (a :: as) ↔ ok s a ∧ Along step ok v as := by
  constructor
  · intro h
    refine ⟨h [] a as s rfl rfl, fun before b after t has ht => ?_⟩
    apply h (a :: before) b after t
    · rw [has, List.cons_append]
    · rw [run, hstep, bind_some, ht]
  · rintro ⟨hfirst, hlater⟩ before b after t has ht
    cases before with
    | nil =>
      cases has
      cases ht
      exact hfirst
    | cons c before =>
      obtain ⟨rfl, htail⟩ := List.cons.inj has
      rw [run, hstep, bind_some] at ht
      exact hlater before b after t htail ht

theorem along_and :
    Along step (fun v a => ok v a ∧ ok' v a) s w ↔ Along step ok s w ∧ Along step ok' s w := by
  constructor
  · intro h
    exact ⟨fun x a y u hw hu => (h x a y u hw hu).1, fun x a y u hw hu => (h x a y u hw hu).2⟩
  · rintro ⟨h, h'⟩ x a y u hw hu
    exact ⟨h x a y u hw hu, h' x a y u hw hu⟩

theorem runs_of_along (h : run step s w = some u) (halong : Along step ok s w) :
    Runs step ok s u := by
  induction w generalizing s with
  | nil =>
    obtain rfl : s = u := by simpa [run] using h
    exact .refl
  | cons a as ih =>
    obtain ⟨v, hv, hrest⟩ := bind_eq_some_iff.mp h
    obtain ⟨hfirst, hlater⟩ := (along_cons hv).mp halong
    exact (Runs.refl.tail hfirst hv).trans (ih hrest hlater)

/-- Every state of the run satisfies `P`. -/
def Throughout (step : σ → α → Option σ) (P : σ → Prop) (s : σ) (w : List α) : Prop :=
  ∀ before after u, w = before ++ after → run step s before = some u → P u

theorem throughout_cons {P : σ → Prop} {v : σ} {a : α} {as : List α} (hstep : step s a = some v) :
    Throughout step P s (a :: as) ↔ P s ∧ Throughout step P v as := by
  constructor
  · intro h
    refine ⟨h [] (a :: as) s rfl rfl, fun before after t has ht => ?_⟩
    apply h (a :: before) after t
    · rw [has, List.cons_append]
    · rw [run, hstep, bind_some, ht]
  · rintro ⟨hfirst, hlater⟩ before after t has ht
    cases before with
    | nil =>
      cases ht
      exact hfirst
    | cons c before =>
      obtain ⟨rfl, htail⟩ := List.cons.inj has
      rw [run, hstep, bind_some] at ht
      exact hlater before after t htail ht

/-- Where each step keeps `P` exactly if it satisfies `ok`, so does each run. -/
theorem throughout_iff_along (P Inv : σ → Prop)
    (keep : ∀ v a v', Inv v → step v a = some v' → Inv v')
    (hiff : ∀ v a v', Inv v → P v → step v a = some v' → (P v' ↔ ok v a)) (hinv : Inv s)
    (hinit : P s) (h : run step s w = some u) :
    Throughout step P s w ↔ Along step ok s w := by
  induction w generalizing s with
  | nil =>
    constructor
    · intro _ before a after t has
      exact absurd (congrArg List.length has) (by simp)
    · intro _ before after t has ht
      obtain ⟨rfl, -⟩ := List.append_eq_nil_iff.mp has.symm
      cases ht
      exact hinit
  | cons a as ih =>
    obtain ⟨v, hv, hrest⟩ := bind_eq_some_iff.mp h
    rw [throughout_cons hv, along_cons hv, and_iff_right hinit]
    constructor
    · intro hlater
      have hnext : P v := hlater [] as v rfl rfl
      exact ⟨(hiff s a v hinv hinit hv).mp hnext, (ih (keep s a v hinv hv) hnext hrest).mp hlater⟩
    · rintro ⟨hok, hlater⟩
      have hnext : P v := (hiff s a v hinv hinit hv).mpr hok
      exact (ih (keep s a v hinv hv) hnext hrest).mpr hlater

theorem checkedRun_simulation {τ : Type*} {step₂ : τ → α → Option τ} {R : σ → τ → Prop}
    {ok : σ → α → Bool}
    (hsim : ∀ s t a s', R s t → ok s a = true → step s a = some s' →
      ∃ t', step₂ t a = some t' ∧ R s' t')
    {t : τ} (h : R s t) (hrun : checkedRun step ok s w = some u) :
    ∃ t', run step₂ t w = some t' ∧ R u t' := by
  induction w generalizing s t with
  | nil =>
    obtain rfl : s = u := by simpa [checkedRun] using hrun
    exact ⟨t, rfl, h⟩
  | cons a as ih =>
    simp only [checkedRun] at hrun
    split at hrun
    · rename_i hok
      obtain ⟨v, hv, hrest⟩ := bind_eq_some_iff.mp hrun
      obtain ⟨t₁, ht₁, hR⟩ := hsim s t a v h hok hv
      obtain ⟨t₂, ht₂, hR₂⟩ := ih hR hrest
      exact ⟨t₂, by rw [run, ht₁, bind_some, ht₂], hR₂⟩
    · cases hrun

theorem checkedRun_true (s : σ) (w : List α) : checkedRun step (fun _ _ => true) s w = run step s w := by
  induction w generalizing s with
  | nil => rfl
  | cons a as ih => simp only [checkedRun, run, if_true, ih]

theorem run_simulation {τ : Type*} {step₂ : τ → α → Option τ} {R : σ → τ → Prop}
    (hsim : ∀ s t a s', R s t → step s a = some s' → ∃ t', step₂ t a = some t' ∧ R s' t')
    {t : τ} (h : R s t) (hrun : run step s w = some u) :
    ∃ t', run step₂ t w = some t' ∧ R u t' :=
  checkedRun_simulation (fun s t a s' hR _ => hsim s t a s' hR) h
    ((checkedRun_true s w).trans hrun)

end Transition
