import TraceJvm.AnalysisPasses
import TraceJvm.Lib.Outcome

/-! The analyser accepts what the type checker admits: an instruction whose frame the analyser knows
and whose result fits the declared stack is analysed without an error. -/
namespace TraceJvm
open Outcome List

section Accepted

variable {kind kind' : InsnKind} {st st' : List TypeKind} {maxStack : ℕ}

theorem tosType_ok (h : .void ∉ st) : ∃ t, tosType st = .ok t := by
  cases st with
  | nil => exact ⟨_, rfl⟩
  | cons k st =>
    cases k with
    | void => exact absurd mem_cons_self h
    | _ => exact ⟨_, rfl⟩

theorem pushEntry_ok {k : TypeKind} (h : st.length ≤ maxStack) :
    pushEntry maxStack k st = .ok (pushKind k st) := by
  unfold pushEntry pushKind
  rw [if_neg (by omega)]
  split <;> rfl

theorem pushEntries_ok {ks : List TypeKind} (h : st.length + ks.length ≤ maxStack + 1) :
    ∃ st', pushEntries maxStack ks st = .ok st' := by
  induction ks generalizing st with
  | nil => exact ⟨st, rfl⟩
  | cons k ks ih =>
    rw [length_cons] at h
    have hlen : (pushKind k st).length ≤ st.length + 1 := by
      unfold pushKind
      split
      · exact Nat.le_succ _
      · exact Nat.le_refl _
    rw [pushEntries, pushEntry_ok (by omega)]
    exact ih (by omega)

/-- The analyser accepts every form whose result fits. -/
theorem ShuffleForm.accepted (h : ShuffleForm kind kind' st st') (hfit : st'.length ≤ maxStack) :
    ∃ r, analyzeShuffle maxStack kind st = .ok r := by
  obtain ⟨ks, rest, rfl, -, heq⟩ := h.analyze maxStack
  rw [length_append, length_reverse] at hfit
  obtain ⟨r, hr⟩ := pushEntries_ok (show rest.length + ks.length ≤ maxStack + 1 by omega)
  exact ⟨(r, kind'), by rw [heq, hr]; rfl⟩

theorem ShuffleForm.noVoid (h : ShuffleForm kind kind' st st') (hv : .void ∉ st) : .void ∉ st' := by
  intro hmem
  apply hv
  cases h with
  | pop | pop2Wide => exact mem_cons_of_mem _ hmem
  | pop2 => exact mem_cons_of_mem _ (mem_cons_of_mem _ hmem)
  | _ =>
    simp only [mem_cons] at hmem ⊢
    tauto

theorem pushKind_noVoid {k : TypeKind} (hv : .void ∉ st) : .void ∉ pushKind k st := by
  unfold pushKind
  split
  · exact hv
  · rename_i hk
    exact not_mem_cons_of_ne_of_not_mem (Ne.symm hk) hv

variable {insn insn₂ : Instruction} {f g : KindFrame}

theorem Typed.noVoid {maxLocals : ℕ} (h : Typed maxLocals insn f g) (hv : .void ∉ f.stack) :
    .void ∉ g.stack := by
  cases h with
  | load hk => exact not_mem_cons_of_ne_of_not_mem (loadKind_ne_void hk).symm hv
  | store hl hk hfit hst =>
    rw [hst] at hv
    exact fun hmem => hv (mem_cons_of_mem _ hmem)
  | iinc => exact hv
  | shuffle hk hst =>
    obtain ⟨kind', hform⟩ := shuffleForm_of_shuffleKinds hst
    exact hform.noVoid hv
  | other hl hs hi hk hj heff he hst =>
    rw [hst] at hv
    exact pushKind_noVoid fun hmem => hv (mem_append_right _ hmem)

/-- The analyser accepts an instruction that JVMS admits, if its result fits. -/
theorem analyzeEffect_ok {env : AnalysisEnv} {b : Bool} {i : ℕ} {c : AnalysisCtx}
    (ht : typeStep env.maxLocals insn f = some g) (hs : c.stack = f.stack)
    (hz : Swizzles env.maxLocals env.swizzle) (hag : AgreesLocals env.swizzle c.locals f.locals)
    (hbefore : f.stack.length ≤ env.maxStack)
    (hbehind : insn.kind.isShuffle → g.stack.length ≤ env.maxStack) :
    ∃ r, analyzeEffect env b i insn c = .ok r := by
  cases typeStep_typed ht with
  | @load k hk hfit hlocal =>
    have hlt : insn.index < env.maxLocals := by
      unfold localFits at hfit
      split at hfit <;> simp only [decide_eq_true_eq] at hfit <;> omega
    obtain ⟨j, hj⟩ := hz.exists_get hlt
    have hknown := hag insn.index j hj (hlocal ▸ loadKind_ne_void hk)
    have hkind : c.locals.getD j .void = k := by
      rw [getD_eq_getElem?_getD, hknown, hlocal, Option.getD_some]
    simp only [analyzeEffect, hk, swizzleLocal, hj, bind, Except.bind, hkind,
      pushEntry_ok (hs ▸ hbefore), ne_eq, not_true_eq_false, if_false]
    exact ⟨_, rfl⟩
  | @store k st hl hk hfit hst =>
    have hlt : insn.index < env.maxLocals := by
      unfold localFits at hfit
      split at hfit <;> simp only [decide_eq_true_eq] at hfit <;> omega
    obtain ⟨j, hj⟩ := hz.exists_get hlt
    have hpop : popKinds [k] c.stack = .ok st := popKinds_eq_ok.mpr (hs.trans hst)
    simp only [analyzeEffect, hl, hk, hpop, swizzleLocal, hj, bind, Except.bind]
    exact ⟨_, rfl⟩
  | iinc hk hlt =>
    obtain ⟨j, hj⟩ := hz.exists_get hlt
    simp only [analyzeEffect, hk, loadKind, storeKind, if_true, swizzleLocal, hj, bind, Except.bind]
    exact ⟨_, rfl⟩
  | shuffle hk hst =>
    obtain ⟨hl, hstore, hi, -⟩ := loadKind_of_isShuffle hk
    have hput : ¬ (insn.kind = .putfield ∨ insn.kind = .putstatic) := by
      rintro (heq | heq)
      all_goals
        rw [heq] at hk
        cases hk
    obtain ⟨kind', hform⟩ := shuffleForm_of_shuffleKinds hst
    obtain ⟨r, hr⟩ := hform.accepted (hbehind hk)
    simp only [analyzeEffect, hl, hstore, if_neg hi, if_neg hput, hk, if_true, hs, hr, bind,
      Except.bind]
    exact ⟨_, rfl⟩
  | @other pops st push hl hstore hi hk hj heff he hst hv =>
    have hpop : popKinds pops c.stack = .ok st := popKinds_eq_ok.mpr (hs.trans hst)
    have hroom : st.length ≤ env.maxStack := by
      rw [hst, length_append] at hbefore
      omega
    unfold jvmsEffect at heff
    split at heff
    · cases heff
    split at heff
    · rename_i hput
      cases heff
      have hstack : c.stack = insn.field.reprKind :: .reference :: st := hs.trans hst
      simp only [analyzeEffect, hput, loadKind, storeKind, reduceCtorEq, if_false, true_or, if_true,
        hstack, popVal, popKinds, bind, Except.bind]
      exact ⟨_, rfl⟩
    split at heff
    · rename_i hput
      cases heff
      have hstack : c.stack = insn.field.reprKind :: st := hs.trans hst
      simp only [analyzeEffect, hput, loadKind, storeKind, reduceCtorEq, if_false, or_true, if_true,
        hstack, popVal, popKinds, bind, Except.bind]
      exact ⟨_, rfl⟩
    · rename_i hpf hps
      have hput : ¬ (insn.kind = .putfield ∨ insn.kind = .putstatic) := not_or.mpr ⟨hpf, hps⟩
      simp only [analyzeEffect, hl, hstore, if_neg hi, if_neg hput, hk, Bool.false_eq_true,
        if_false, heff, hpop, bind, Except.bind]
      by_cases hpush : push = .void
      · rw [if_pos hpush]
        exact ⟨_, rfl⟩
      · rw [if_neg hpush, pushEntry_ok hroom]
        exact ⟨_, rfl⟩

theorem analyzeInstruction_ok {env : AnalysisEnv} {b : Bool} {i : ℕ} {c : AnalysisCtx}
    (ht : typeStep env.maxLocals insn f = some g) (hop : insn.SameOp insn₂)
    (hs : c.stack = f.stack) (hv : .void ∉ f.stack) (hz : Swizzles env.maxLocals env.swizzle)
    (hag : AgreesLocals env.swizzle c.locals f.locals) (hbefore : f.stack.length ≤ env.maxStack)
    (hbehind : insn.kind.isShuffle → g.stack.length ≤ env.maxStack) :
    ∃ r, analyzeInstruction env b i insn₂ c = .ok r := by
  obtain ⟨before, hbefore'⟩ := tosType_ok hv
  have ht₂ : typeStep env.maxLocals { insn₂ with tosBefore := before } f = some g := by
    obtain ⟨_, _, _, rfl⟩ := hop
    exact ht
  obtain ⟨r, hr⟩ := analyzeEffect_ok (b := b) (i := i) ht₂ hs hz hag hbefore (by
    rw [hop.kind_eq]
    exact hbehind)
  have hstack := ((analyzeEffect_analyzed hr).typed ht₂ hs).1
  obtain ⟨after, hafter⟩ := tosType_ok ((typeStep_typed ht).noVoid hv)
  rw [analyzeInstruction, hs, hbefore']
  show ∃ p, (analyzeEffect env b i { insn₂ with tosBefore := before } c >>= _) = _
  rw [hr]
  show ∃ p, (tosType r.1.stack >>= _) = _
  rw [hstack, hafter]
  exact ⟨_, rfl⟩

end Accepted

end TraceJvm
