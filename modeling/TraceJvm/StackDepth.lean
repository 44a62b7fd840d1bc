import TraceJvm.FrameTyping
import TraceJvm.Lib.Outcome

/-! The number of values that each instruction takes from the operand stack and leaves on it, where
the analysis accepts it. -/
namespace TraceJvm
open Outcome

/-- How many values a stack instruction takes and the kinds it leaves instead, bottom first. What
counts as one value depends on which of them are wide. -/
def shuffleEffect : InsnKind → List TypeKind → ℕ × List TypeKind
  | .dup, a :: _ => (0, [a])
  | .dupX1, a :: b :: _ => (2, [a, b, a])
  | .dupX2, a :: b :: st =>
      if b.isWide then (2, [a, b, a]) else (3, [a, st.headD .void, b, a])
  | .dup2, a :: st => if a.isWide then (1, [a, a]) else (2, [st.headD .void, a, st.headD .void, a])
  | .dup2X1, a :: b :: st =>
      if a.isWide then (2, [a, b, a]) else (3, [b, a, st.headD .void, b, a])
  | .dup2X2, a :: b :: st =>
      if a.isWide then
        if b.isWide then (2, [a, b, a]) else (3, [a, st.headD .void, b, a])
      else if (st.headD .void).isWide then (3, [b, a, st.headD .void, b, a])
      else (4, [b, a, st.tail.headD .void, st.headD .void, b, a])
  | .pop, _ => (1, [])
  | .pop2, a :: _ => if a.isWide then (1, []) else (2, [])
  | .swap, a :: b :: _ => (2, [a, b])
  | _, _ => (0, [])

/-- The values that an instruction takes from the stack and the kinds it leaves instead. -/
def stackChange (insn : Instruction) (st : List TypeKind) : ℕ × List TypeKind :=
  match loadKind insn.kind, storeKind insn.kind with
  | some k, _ => (0, [k])
  | none, some _ => (1, [])
  | none, none =>
    if insn.kind = .iinc then (0, [])
    else if insn.kind = .putfield then (2, [])
    else if insn.kind = .putstatic then (1, [])
    else if insn.kind.isShuffle then shuffleEffect insn.kind st
    else
      match stackEffect insn with
      | some (pops, push) => (pops.length, [push])
      | none => (0, [])

/-- The number of values on the stack after the instruction; `void` is none. -/
def depthAfter (insn : Instruction) (st : List TypeKind) : ℕ :=
  st.length - (stackChange insn st).1 + ((stackChange insn st).2.filter (· ≠ .void)).length

theorem pushEntries_length {maxStack : ℕ} {ks st st' : List TypeKind}
    (h : pushEntries maxStack ks st = .ok st') :
    st'.length = st.length + (ks.filter (· ≠ .void)).length := by
  induction ks generalizing st with
  | nil =>
    cases h
    rfl
  | cons k ks ih =>
    rw [pushEntries] at h
    obtain ⟨t, ht, h⟩ := bind_eq_ok.mp h
    have hpush := pushEntry_eq_ok ht
    rw [ih h, hpush, pushKind, List.filter_cons]
    by_cases hv : k = .void
    · simp [hv]
    · simp [hv]
      omega

/-- A stack instruction is rewritten to a stack instruction, and its effect is that of
`shuffleEffect`. -/
theorem analyzeShuffle_length {maxStack : ℕ} {kind kind' : InsnKind} {st st' : List TypeKind}
    (h : analyzeShuffle maxStack kind st = .ok (st', kind')) :
    st'.length = st.length - (shuffleEffect kind st).1 +
      ((shuffleEffect kind st).2.filter (· ≠ .void)).length ∧ kind'.isShuffle = true := by
  have hpush : ∀ {ks rest : List TypeKind} {k' : InsnKind}, k'.isShuffle = true →
      (pushEntries maxStack ks rest >>= fun r => (pure (r, k') : Except AnalysisError _)) =
        .ok (st', kind') →
      st'.length = rest.length + (ks.filter (· ≠ .void)).length ∧ kind'.isShuffle = true := by
    intro ks rest k' hk' hok
    obtain ⟨r, hr, heq⟩ := bind_eq_ok.mp hok
    cases heq
    exact ⟨pushEntries_length hr, hk'⟩
  cases kind with
  | dup =>
    cases st with
    | nil => cases h
    | cons a st =>
      obtain ⟨r, hr, heq⟩ := bind_eq_ok.mp h
      cases heq
      refine ⟨?_, rfl⟩
      rw [pushEntry_eq_ok hr, pushKind]
      by_cases hv : a = .void <;> simp [shuffleEffect, hv]
  | dupX1 | swap =>
    rcases st with _ | ⟨a, _ | ⟨b, st⟩⟩
    · cases h
    · cases h
    · change (if _ then _ else _) = _ at h
      split at h
      · cases h
      · exact hpush rfl h
  | dupX2 =>
    rcases st with _ | ⟨a, _ | ⟨b, st⟩⟩
    · cases h
    · cases h
    · change (if _ then _ else if _ then _ else _) = _ at h
      split at h
      · cases h
      · split at h
        · rename_i hb
          simp only [shuffleEffect, if_pos hb]
          exact hpush rfl h
        · rename_i hb
          simp only [shuffleEffect, if_neg hb]
          cases st with
          | nil => cases h
          | cons c st => exact hpush rfl h
  | dup2 =>
    cases st with
    | nil => cases h
    | cons a st =>
      change (if _ then _ else _) = _ at h
      split at h
      · rename_i ha
        simp only [shuffleEffect, if_pos ha]
        exact hpush rfl h
      · rename_i ha
        simp only [shuffleEffect, if_neg ha]
        cases st with
        | nil => cases h
        | cons b st =>
          change (if _ then _ else _) = _ at h
          split at h
          · cases h
          · exact hpush rfl h
  | dup2X1 =>
    rcases st with _ | ⟨a, _ | ⟨b, st⟩⟩
    · cases h
    · cases h
    · change (if _ then _ else _) = _ at h
      split at h
      · rename_i ha
        simp only [shuffleEffect, if_pos ha]
        exact hpush rfl h
      · rename_i ha
        simp only [shuffleEffect, if_neg ha]
        cases st with
        | nil => cases h
        | cons c st =>
          change (if _ then _ else _) = _ at h
          split at h
          · cases h
          · exact hpush rfl h
  | dup2X2 =>
    rcases st with _ | ⟨a, _ | ⟨b, st⟩⟩
    · cases h
    · cases h
    · change (if _ then if _ then _ else _ else _) = _ at h
      split at h
      · rename_i ha
        simp only [shuffleEffect, if_pos ha]
        split at h
        · rename_i hb
          simp only [if_pos hb]
          exact hpush rfl h
        · rename_i hb
          simp only [if_neg hb]
          cases st with
          | nil => cases h
          | cons c st =>
            change (if _ then _ else _) = _ at h
            split at h
            · cases h
            · exact hpush rfl h
      · rename_i ha
        simp only [shuffleEffect, if_neg ha]
        cases st with
        | nil => cases h
        | cons c st =>
          change (if _ then _ else _) = _ at h
          split at h
          · rename_i hc
            simp only [List.headD_cons, show c.isWide = true from hc, if_true]
            exact hpush rfl h
          · rename_i hc
            simp only [List.headD_cons, show c.isWide = false from Bool.eq_false_iff.mpr hc,
              Bool.false_eq_true, if_false]
            cases st with
            | nil => cases h
            | cons d st =>
              change (if _ then _ else _) = _ at h
              split at h
              · cases h
              · exact hpush rfl h
  | pop =>
    cases st with
    | nil => cases h
    | cons a st =>
      change (if _ then _ else _) = _ at h
      split at h
      · cases h
      · cases h
        exact ⟨rfl, rfl⟩
  | pop2 =>
    cases st with
    | nil => cases h
    | cons a st =>
      change (if _ then _ else _) = _ at h
      split at h
      · rename_i ha
        simp only [shuffleEffect, if_pos ha]
        cases h
        exact ⟨rfl, rfl⟩
      · rename_i ha
        simp only [shuffleEffect, if_neg ha]
        cases st with
        | nil => cases h
        | cons b st =>
          change (if _ then _ else _) = _ at h
          split at h
          · cases h
          · cases h
            exact ⟨rfl, rfl⟩
  | _ => cases h

/-- The depth after an instruction that the analysis accepts. -/
theorem Analyzed.depth {env : AnalysisEnv} {b : Bool} {curr : ℕ} {insn insn' : Instruction}
    {c : AnalysisCtx} {st ls : List TypeKind} (h : Analyzed env b curr insn c st ls insn') :
    st.length = depthAfter insn c.stack := by
  cases h with
  | load hk =>
    have hv := loadKind_ne_void hk
    simp [depthAfter, stackChange, hk, pushKind, hv]
  | store hl hk hst =>
    simp [depthAfter, stackChange, hl, hk, hst]
  | iinc hk =>
    simp [depthAfter, stackChange, hk, loadKind, storeKind]
  | put hk hst =>
    rcases hk with hk | hk <;> simp [depthAfter, stackChange, hk, hst, loadKind, storeKind]
  | shuffle hk hst =>
    obtain ⟨hl, hs, hi, -⟩ := loadKind_of_isShuffle hk
    have hput : insn.kind ≠ .putfield ∧ insn.kind ≠ .putstatic := by
      constructor
      all_goals
        intro heq
        rw [heq] at hk
        cases hk
    rw [(analyzeShuffle_length hst).1, depthAfter, stackChange, hl, hs]
    simp [hi, hput, hk]
  | effect hl hs hi hp hk he hst =>
    rename_i pops st push
    have hchange : stackChange insn c.stack = (pops.length, [push]) := by
      simp [stackChange, hl, hs, hi, hp, hk, he]
    rw [depthAfter, hchange, hst, pushKind]
    by_cases hv : push = .void <;> simp [hv]

end TraceJvm
