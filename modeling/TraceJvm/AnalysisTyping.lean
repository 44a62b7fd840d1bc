import TraceJvm.Lib.Outcome
import TraceJvm.Swizzle

/-! One instruction of the analysis against the type checker: where JVMS admits the instruction and
the analyser accepts it, both compute the same stack, and the analyser knows at least as much
about the locals. -/
namespace TraceJvm

variable {ks st st' : List TypeKind}

theorem popKinds_eq_ok : popKinds ks st = .ok st' ↔ st = ks ++ st' := by
  induction ks generalizing st with
  | nil => simp [popKinds]
  | cons k ks ih =>
    cases st with
    | nil => simp [popKinds]
    | cons k' st =>
      simp only [popKinds]
      split
      · rename_i hk
        simp [hk, ih]
      · rename_i hk
        simp [Ne.symm hk]

theorem takeKinds_eq_some : takeKinds ks st = some st' ↔ st = ks ++ st' ∧ .void ∉ ks := by
  induction ks generalizing st with
  | nil => simp [takeKinds]
  | cons k ks ih =>
    cases st with
    | nil => simp [takeKinds]
    | cons k' st =>
      simp only [takeKinds]
      split
      · rename_i hk
        obtain ⟨rfl, hk⟩ := hk
        simp [ih, Ne.symm hk]
      · rename_i hk
        simp only [reduceCtorEq, List.cons_append, List.cons.injEq, List.mem_cons, not_or, false_iff,
          not_and]
        rintro ⟨rfl, -⟩ hv
        exact absurd ⟨rfl, Ne.symm hv⟩ hk

variable {k : TypeKind}

variable {maxStack : ℕ}

theorem pushEntry_eq_ok {st st' : List TypeKind}
    (h : pushEntry maxStack k st = .ok st') : st' = pushKind k st := by
  unfold pushEntry at h
  unfold pushKind
  split at h
  · cases h
  · split at h <;> simp_all

theorem pushEntries_eq_ok (hv : .void ∉ ks)
    (h : pushEntries maxStack ks st = .ok st') : st' = ks.reverse ++ st := by
  induction ks generalizing st with
  | nil =>
    simp only [pushEntries, Except.ok.injEq] at h
    simp [h]
  | cons k ks ih =>
    simp only [pushEntries, bind, Except.bind] at h
    split at h
    · cases h
    · rename_i t ht
      simp only [List.mem_cons, not_or] at hv
      have hpush := pushEntry_eq_ok ht
      rw [pushKind, if_neg (Ne.symm hv.1)] at hpush
      rw [ih hv.2 h, hpush]
      simp

/-- The handlers of the stack instructions move whole slots, whatever they hold. -/
def shuffleSlots {α : Type*} : InsnKind → List α → Option (List α)
  | .dup, a :: st => some (a :: a :: st)
  | .dupX1, a :: b :: st => some (a :: b :: a :: st)
  | .dupX2, a :: b :: c :: st => some (a :: b :: c :: a :: st)
  | .dup2, a :: b :: st => some (a :: b :: a :: b :: st)
  | .dup2X1, a :: b :: c :: st => some (a :: b :: c :: a :: b :: st)
  | .dup2X2, a :: b :: c :: d :: st => some (a :: b :: c :: d :: a :: b :: st)
  | .pop, _ :: st => some st
  | .pop2, _ :: _ :: st => some st
  | .swap, a :: b :: st => some (b :: a :: st)
  | _, _ => none

theorem isNarrow_iff : k.isNarrow ↔ k.isWide = false ∧ k ≠ .void := by
  simp [TypeKind.isNarrow]

theorem ne_void_of_isWide (h : k.isWide) : k ≠ .void := by
  rintro rfl
  cases h

/-- The forms of the stack instructions, with the instruction that each is rewritten to and the
stack after it. -/
inductive ShuffleForm : InsnKind → InsnKind → List TypeKind → List TypeKind → Prop where
  | dup {a : TypeKind} {st : List TypeKind} (ha : a.isNarrow) :
      ShuffleForm .dup .dup (a :: st) (a :: a :: st)
  | dupX1 {a b : TypeKind} {st : List TypeKind} (ha : a.isNarrow) (hb : b.isNarrow) :
      ShuffleForm .dupX1 .dupX1 (a :: b :: st) (a :: b :: a :: st)
  | dupX2Wide {a b : TypeKind} {st : List TypeKind} (ha : a.isNarrow) (hb : b.isWide) :
      ShuffleForm .dupX2 .dupX1 (a :: b :: st) (a :: b :: a :: st)
  | dupX2 {a b c : TypeKind} {st : List TypeKind} (ha : a.isNarrow) (hb : b.isNarrow)
      (hc : c.isNarrow) : ShuffleForm .dupX2 .dupX2 (a :: b :: c :: st) (a :: b :: c :: a :: st)
  | dup2Wide {a : TypeKind} {st : List TypeKind} (ha : a.isWide) :
      ShuffleForm .dup2 .dup (a :: st) (a :: a :: st)
  | dup2 {a b : TypeKind} {st : List TypeKind} (ha : a.isNarrow) (hb : b.isNarrow) :
      ShuffleForm .dup2 .dup2 (a :: b :: st) (a :: b :: a :: b :: st)
  | dup2X1Wide {a b : TypeKind} {st : List TypeKind} (ha : a.isWide) (hb : b.isNarrow) :
      ShuffleForm .dup2X1 .dupX1 (a :: b :: st) (a :: b :: a :: st)
  | dup2X1 {a b c : TypeKind} {st : List TypeKind} (ha : a.isNarrow) (hb : b.isNarrow)
      (hc : c.isNarrow) :
      ShuffleForm .dup2X1 .dup2X1 (a :: b :: c :: st) (a :: b :: c :: a :: b :: st)
  | dup2X2WideWide {a b : TypeKind} {st : List TypeKind} (ha : a.isWide) (hb : b.isWide) :
      ShuffleForm .dup2X2 .dupX1 (a :: b :: st) (a :: b :: a :: st)
  | dup2X2Wide {a b c : TypeKind} {st : List TypeKind} (ha : a.isWide) (hb : b.isNarrow)
      (hc : c.isNarrow) : ShuffleForm .dup2X2 .dupX2 (a :: b :: c :: st) (a :: b :: c :: a :: st)
  | dup2X2Under {a b c : TypeKind} {st : List TypeKind} (ha : a.isNarrow) (hb : b.isNarrow)
      (hc : c.isWide) :
      ShuffleForm .dup2X2 .dup2X1 (a :: b :: c :: st) (a :: b :: c :: a :: b :: st)
  | dup2X2 {a b c d : TypeKind} {st : List TypeKind} (ha : a.isNarrow) (hb : b.isNarrow)
      (hc : c.isNarrow) (hd : d.isNarrow) :
      ShuffleForm .dup2X2 .dup2X2 (a :: b :: c :: d :: st) (a :: b :: c :: d :: a :: b :: st)
  | pop {a : TypeKind} {st : List TypeKind} (ha : a.isNarrow) : ShuffleForm .pop .pop (a :: st) st
  | pop2Wide {a : TypeKind} {st : List TypeKind} (ha : a.isWide) :
      ShuffleForm .pop2 .pop (a :: st) st
  | pop2 {a b : TypeKind} {st : List TypeKind} (ha : a.isNarrow) (hb : b.isNarrow) :
      ShuffleForm .pop2 .pop2 (a :: b :: st) st
  | swap {a b : TypeKind} {st : List TypeKind} (ha : a.isNarrow) (hb : b.isNarrow) :
      ShuffleForm .swap .swap (a :: b :: st) (b :: a :: st)

variable {kind : InsnKind}

theorem pushEntries_singleton (k : TypeKind) (st : List TypeKind) :
    pushEntries maxStack [k] st = pushEntry maxStack k st := by
  simp only [pushEntries, bind, Except.bind]
  split <;> simp [*]

variable {kind' : InsnKind}

/-- In each form the analyser pushes some entries upon a rest of the stack. -/
theorem ShuffleForm.analyze (maxStack : ℕ) (h : ShuffleForm kind kind' st st') :
    ∃ ks rest, ks.reverse ++ rest = st' ∧ .void ∉ ks ∧ analyzeShuffle maxStack kind st =
      pushEntries maxStack ks rest >>= fun r => pure (r, kind') := by
  have hn : ∀ {k : TypeKind}, k.isNarrow → k.isWide = false ∧ .void ≠ k :=
    fun hk => (isNarrow_iff.mp hk).imp_right Ne.symm
  have hw : ∀ {k : TypeKind}, k.isWide → k.isWide = true ∧ .void ≠ k :=
    fun hk => ⟨hk, Ne.symm (ne_void_of_isWide hk)⟩
  cases h with
  | @dup a st ha =>
    refine ⟨[a], a :: st, rfl, by simp [hn ha], ?_⟩
    rw [pushEntries_singleton]
    rfl
  | @dupX1 a b st ha hb =>
    refine ⟨[a, b, a], st, rfl, by simp [hn ha, hn hb], ?_⟩
    simp [analyzeShuffle, popVal, bind, Except.bind, hn ha, hn hb]
  | @dupX2Wide a b st ha hb =>
    refine ⟨[a, b, a], st, rfl, by simp [hn ha, hw hb], ?_⟩
    simp [analyzeShuffle, popVal, bind, Except.bind, hn ha, hw hb]
  | @dupX2 a b c st ha hb hc =>
    refine ⟨[a, c, b, a], st, rfl, by simp [hn ha, hn hb, hn hc], ?_⟩
    simp [analyzeShuffle, popVal, bind, Except.bind, hn ha, hn hb]
  | @dup2Wide a st ha =>
    refine ⟨[a, a], st, rfl, by simp [hw ha], ?_⟩
    simp [analyzeShuffle, popVal, bind, Except.bind, hw ha]
  | @dup2 a b st ha hb =>
    refine ⟨[b, a, b, a], st, rfl, by simp [hn ha, hn hb], ?_⟩
    simp [analyzeShuffle, popVal, bind, Except.bind, hn ha, hn hb]
  | @dup2X1Wide a b st ha hb =>
    refine ⟨[a, b, a], st, rfl, by simp [hw ha, hn hb], ?_⟩
    simp [analyzeShuffle, popVal, bind, Except.bind, hw ha]
  | @dup2X1 a b c st ha hb hc =>
    refine ⟨[b, a, c, b, a], st, rfl, by simp [hn ha, hn hb, hn hc], ?_⟩
    simp [analyzeShuffle, popVal, bind, Except.bind, hn ha, hn hc]
  | @dup2X2WideWide a b st ha hb =>
    refine ⟨[a, b, a], st, rfl, by simp [hw ha, hw hb], ?_⟩
    simp [analyzeShuffle, popVal, bind, Except.bind, hw ha, hw hb]
  | @dup2X2Wide a b c st ha hb hc =>
    refine ⟨[a, c, b, a], st, rfl, by simp [hw ha, hn hb, hn hc], ?_⟩
    simp [analyzeShuffle, popVal, bind, Except.bind, hw ha, hn hb, hn hc]
  | @dup2X2Under a b c st ha hb hc =>
    refine ⟨[b, a, c, b, a], st, rfl, by simp [hn ha, hn hb, hw hc], ?_⟩
    simp [analyzeShuffle, popVal, bind, Except.bind, hn ha, hw hc]
  | @dup2X2 a b c d st ha hb hc hd =>
    refine ⟨[b, a, d, c, b, a], st, rfl, by simp [hn ha, hn hb, hn hc, hn hd], ?_⟩
    simp [analyzeShuffle, popVal, bind, Except.bind, hn ha, hn hc, hn hd]
  | pop ha =>
    refine ⟨[], st', rfl, nofun, ?_⟩
    simp [analyzeShuffle, popVal, bind, Except.bind, hn ha, pushEntries]
  | pop2Wide ha =>
    refine ⟨[], st', rfl, nofun, ?_⟩
    simp [analyzeShuffle, popVal, bind, Except.bind, hw ha, pushEntries]
  | pop2 ha hb =>
    refine ⟨[], st', rfl, nofun, ?_⟩
    simp [analyzeShuffle, popVal, bind, Except.bind, hn ha, hn hb, pushEntries]
  | @swap a b st ha hb =>
    refine ⟨[a, b], st, rfl, by simp [hn ha, hn hb], ?_⟩
    simp [analyzeShuffle, popVal, bind, Except.bind, hn ha, hn hb]

/-- What JVMS admits is one of the forms. -/
theorem shuffleForm_of_shuffleKinds (h : shuffleKinds kind st = some st') :
    ∃ kind', ShuffleForm kind kind' st st' := by
  unfold shuffleKinds at h
  split at h
  · split at h
    · rename_i ha
      cases h
      exact ⟨_, .dup ha⟩
    · cases h
  · split at h
    · rename_i hn
      cases h
      rw [Bool.and_eq_true] at hn
      exact ⟨_, .dupX1 hn.1 hn.2⟩
    · cases h
  · split at h
    · rename_i hn
      cases h
      rw [Bool.and_eq_true] at hn
      exact ⟨_, .dupX2Wide hn.1 hn.2⟩
    split at h
    · split at h
      · rename_i hn
        cases h
        simp only [Bool.and_eq_true] at hn
        exact ⟨_, .dupX2 hn.1.1 hn.1.2 hn.2⟩
      · cases h
    · cases h
  · split at h
    · rename_i ha
      cases h
      exact ⟨_, .dup2Wide ha⟩
    split at h
    · split at h
      · rename_i hn
        cases h
        rw [Bool.and_eq_true] at hn
        exact ⟨_, .dup2 hn.1 hn.2⟩
      · cases h
    · cases h
  · split at h
    · rename_i hn
      cases h
      rw [Bool.and_eq_true] at hn
      exact ⟨_, .dup2X1Wide hn.1 hn.2⟩
    split at h
    · split at h
      · rename_i hn
        cases h
        simp only [Bool.and_eq_true] at hn
        exact ⟨_, .dup2X1 hn.1.1 hn.1.2 hn.2⟩
      · cases h
    · cases h
  · split at h
    · rename_i hn
      cases h
      rw [Bool.and_eq_true] at hn
      exact ⟨_, .dup2X2WideWide hn.1 hn.2⟩
    split at h
    · split at h
      · rename_i hn
        cases h
        simp only [Bool.and_eq_true] at hn
        exact ⟨_, .dup2X2Wide hn.1.1 hn.1.2 hn.2⟩
      split at h
      · rename_i hn
        cases h
        simp only [Bool.and_eq_true] at hn
        exact ⟨_, .dup2X2Under hn.1.1 hn.1.2 hn.2⟩
      split at h
      · split at h
        · rename_i hn
          cases h
          simp only [Bool.and_eq_true] at hn
          exact ⟨_, .dup2X2 hn.1.1.1 hn.1.1.2 hn.1.2 hn.2⟩
        · cases h
      · cases h
    · cases h
  · split at h
    · rename_i ha
      cases h
      exact ⟨_, .pop ha⟩
    · cases h
  · split at h
    · rename_i ha
      cases h
      exact ⟨_, .pop2Wide ha⟩
    split at h
    · split at h
      · rename_i hn
        cases h
        rw [Bool.and_eq_true] at hn
        exact ⟨_, .pop2 hn.1 hn.2⟩
      · cases h
    · cases h
  · split at h
    · rename_i hn
      cases h
      rw [Bool.and_eq_true] at hn
      exact ⟨_, .swap hn.1 hn.2⟩
    · cases h
  · cases h

/-- Where JVMS admits a stack instruction, the analyser finds out its form. -/
theorem analyzeShuffle_form {st'' : List TypeKind}
    (h : analyzeShuffle maxStack kind st = .ok (st', kind'))
    (ht : shuffleKinds kind st = some st'') : st' = st'' ∧ ShuffleForm kind kind' st st'' := by
  obtain ⟨kind'', hform⟩ := shuffleForm_of_shuffleKinds ht
  obtain ⟨ks, rest, rfl, hv, heq⟩ := hform.analyze maxStack
  obtain ⟨r, hr, hpair⟩ := Outcome.bind_eq_ok.mp (heq.symm.trans h)
  cases hpair
  exact ⟨pushEntries_eq_ok hv hr, hform⟩

theorem ShuffleForm.slots_eq (h : ShuffleForm kind kind' st st') :
    shuffleSlots kind' st = some st' := by
  cases h <;> rfl

/-- Everything that `analyze_instruction` can do to an accepted instruction: the stack and the
locals after it, and the instruction it leaves. -/
inductive Analyzed (env : AnalysisEnv) (doRewrite : Bool) (curr : ℕ) (insn : Instruction)
    (c : AnalysisCtx) : List TypeKind → List TypeKind → Instruction → Prop where
  | load {k : TypeKind} {j : ℕ} {index : ℕ} (hk : loadKind insn.kind = some k)
      (hj : env.swizzle[insn.index]? = some j) (hindex : index = if doRewrite then j else insn.index)
      (hlocal : c.locals.getD j .void = k) :
      Analyzed env doRewrite curr insn c (pushKind k c.stack) c.locals
        { insn with index := index, delta := (env.maxLocals : ℤ) - index }
  | store {k : TypeKind} {j : ℕ} {index : ℕ} {st : List TypeKind} (hl : loadKind insn.kind = none)
      (hk : storeKind insn.kind = some k) (hst : c.stack = k :: st)
      (hj : env.swizzle[insn.index]? = some j)
      (hindex : index = if doRewrite then j else insn.index) :
      Analyzed env doRewrite curr insn c st (c.locals.set j k)
        { insn with index := index, delta := (env.maxLocals : ℤ) - index }
  | iinc {j : ℕ} {index : ℕ} (hk : insn.kind = .iinc) (hj : env.swizzle[insn.index]? = some j)
      (hindex : index = if doRewrite then j else insn.index) :
      Analyzed env doRewrite curr insn c c.stack c.locals { insn with index := index }
  | put {k : TypeKind} {st : List TypeKind} (hk : insn.kind = .putfield ∨ insn.kind = .putstatic)
      (hst : c.stack = k :: ((if insn.kind = .putfield then [.reference] else []) ++ st)) :
      Analyzed env doRewrite curr insn c st c.locals insn
  | shuffle {st : List TypeKind} {kind : InsnKind} (hk : insn.kind.isShuffle)
      (hst : analyzeShuffle env.maxStack insn.kind c.stack = .ok (st, kind)) :
      Analyzed env doRewrite curr insn c st c.locals
        { insn with kind := if doRewrite then kind else insn.kind }
  | effect {pops st : List TypeKind} {push : TypeKind} (hl : loadKind insn.kind = none)
      (hs : storeKind insn.kind = none) (hi : insn.kind ≠ .iinc)
      (hp : insn.kind ≠ .putfield ∧ insn.kind ≠ .putstatic) (hk : insn.kind.isShuffle = false)
      (he : stackEffect insn = some (pops, push)) (hst : c.stack = pops ++ st) :
      Analyzed env doRewrite curr insn c (pushKind push st) c.locals
        { insn with
          delta := if insn.kind.hasBranchDelta then ((insn.index : ℤ) - curr) * sizeofInsn
            else insn.delta }

variable {b : Bool} {c : AnalysisCtx} {curr : ℕ}

theorem foldl_pushBranchTarget (ts : List ℕ) :
    (ts.foldl (AnalysisCtx.pushBranchTarget b curr) c).stack = c.stack ∧
      (ts.foldl (AnalysisCtx.pushBranchTarget b curr) c).locals = c.locals := by
  induction ts generalizing c with
  | nil => exact ⟨rfl, rfl⟩
  | cons t ts ih =>
    have hone : (c.pushBranchTarget b curr t).stack = c.stack ∧
        (c.pushBranchTarget b curr t).locals = c.locals := by
      unfold AnalysisCtx.pushBranchTarget
      split <;> exact ⟨rfl, rfl⟩
    rw [List.foldl_cons]
    exact ⟨ih.1.trans hone.1, ih.2.trans hone.2⟩

variable {env : AnalysisEnv}

theorem swizzleLocal_eq_ok {i index j : ℕ} (h : swizzleLocal env b i = .ok (index, j)) :
    env.swizzle[i]? = some j ∧ index = if b then j else i := by
  unfold swizzleLocal at h
  split at h
  · cases h
  · rename_i j' hj
    obtain ⟨rfl, rfl⟩ : (if b then j' else i) = index ∧ j' = j := by simpa using h
    exact ⟨hj, rfl⟩

variable {insn insn' : Instruction}

theorem analyzeEffect_analyzed
    {c' : AnalysisCtx} (h : analyzeEffect env b curr insn c = .ok (c', insn')) :
    Analyzed env b curr insn c c'.stack c'.locals insn' := by
  simp only [analyzeEffect, bind, Except.bind, pure, Except.pure] at h
  split at h
  · rename_i k hk
    split at h
    · cases h
    rename_i r hr
    obtain ⟨hj, hindex⟩ := swizzleLocal_eq_ok hr
    split at h
    · cases h
    rename_i st hst
    split at h
    · cases h
    rename_i hkind
    cases h
    have hkind := not_not.mp hkind
    rw [show st = pushKind k c.stack by rw [pushEntry_eq_ok hst, hkind]]
    exact .load hk hj hindex hkind
  · rename_i k hl hk
    split at h
    · cases h
    rename_i st hst
    split at h
    · cases h
    rename_i r hr
    obtain ⟨hj, hindex⟩ := swizzleLocal_eq_ok hr
    cases h
    exact .store hl hk (popKinds_eq_ok.mp hst) hj hindex
  · rename_i hl hs
    split at h
    · rename_i hi
      split at h
      · cases h
      rename_i r hr
      obtain ⟨hj, hindex⟩ := swizzleLocal_eq_ok hr
      cases h
      exact .iinc hi hj hindex
    split at h
    · rename_i hp
      rcases hst : c.stack with _ | ⟨k, st⟩
      · simp [hst, popVal] at h
      simp only [hst, popVal] at h
      split at h
      · cases h
      rename_i st' hst'
      cases h
      exact .put (k := k) hp (by rw [hst, popKinds_eq_ok.mp hst'])
    split at h
    · rename_i hsh
      split at h
      · cases h
      rename_i r hr
      cases h
      exact .shuffle hsh hr
    rename_i hi hp hsh
    split at h
    · cases h
    rename_i pops push he
    split at h
    · cases h
    rename_i st hst
    have hpop := popKinds_eq_ok.mp hst
    have hsh : insn.kind.isShuffle = false := by simpa using hsh
    have hdone : ∀ st', st' = pushKind push st →
        Analyzed env b curr insn c
          (insn.branchTargets.foldl (AnalysisCtx.pushBranchTarget env.missingSmt curr)
            { c with stack := st' }).stack
          (insn.branchTargets.foldl (AnalysisCtx.pushBranchTarget env.missingSmt curr)
            { c with stack := st' }).locals
          { insn with
            delta := if insn.kind.hasBranchDelta then ((insn.index : ℤ) - curr) * sizeofInsn
              else insn.delta } := by
      rintro st' rfl
      rw [(foldl_pushBranchTarget _).1, (foldl_pushBranchTarget _).2]
      exact .effect hl hs hi (not_or.mp hp) hsh he hpop
    split at h
    · rename_i hv
      cases h
      exact hdone st (by simp [pushKind, hv])
    · split at h
      · cases h
      rename_i st' hst'
      cases h
      exact hdone st' (pushEntry_eq_ok hst')

theorem analyzeInstruction_analyzed {c' : AnalysisCtx}
    (h : analyzeInstruction env b curr insn c = .ok (c', insn')) :
    ∃ before after insn₁, tosType c.stack = .ok before ∧ tosType c'.stack = .ok after ∧
      Analyzed env b curr { insn with tosBefore := before } c c'.stack c'.locals insn₁ ∧
      insn' = { insn₁ with tosAfter := after } := by
  simp only [analyzeInstruction, bind, Except.bind, pure, Except.pure] at h
  split at h
  · cases h
  rename_i before hbefore
  split at h
  · cases h
  rename_i r hr
  split at h
  · cases h
  rename_i after hafter
  cases h
  exact ⟨before, after, r.2, hbefore, hafter, analyzeEffect_analyzed hr, rfl⟩

/-- The analyser knows every local that the type checker knows, at its new number. -/
def AgreesLocals (swizzle : List ℕ) (locals : List TypeKind) (f : ℕ → TypeKind) : Prop :=
  ∀ s j : ℕ, swizzle[s]? = some j → f s ≠ .void → locals[j]? = some (f s)

theorem loadKind_ne_void (h : loadKind kind = some k) : k ≠ .void := by
  rintro rfl
  cases kind <;> cases h

theorem storeKind_ne_void (h : storeKind kind = some k) : k ≠ .void := by
  rintro rfl
  cases kind <;> cases h

theorem AgreesLocals.store {maxLocals n j : ℕ} {swizzle : List ℕ} {locals : List TypeKind}
    {f : ℕ → TypeKind} (hz : Swizzles maxLocals swizzle)
    (hlen : locals.length = maxLocals) (h : AgreesLocals swizzle locals f)
    (hj : swizzle[n]? = some j) :
    AgreesLocals swizzle (locals.set j k) (storeLocal n k f) := by
  intro s j' hs hv
  unfold storeLocal at hv ⊢
  by_cases hsn : s = n
  · subst hsn
    obtain rfl : j = j' := Option.some.inj (hj.symm.trans hs)
    have hlt := (hz.get_lt hj).2
    simp [hlen, hlt]
  · have hne : j ≠ j' := by
      rintro rfl
      exact hsn (hz.get_inj hs hj)
    rw [List.getElem?_set_ne hne]
    simp only [hsn, if_false] at hv ⊢
    split at hv
    · exact absurd rfl hv
    split at hv
    · exact absurd rfl hv
    rename_i h1 h2
    rw [if_neg h1, if_neg h2]
    exact h s j' hs hv

/-- Where JVMS admits the instruction, the analyser and the type checker compute the same stack,
and the analyser keeps knowing the locals. -/
theorem Analyzed.typed {st ls : List TypeKind} {f g : KindFrame}
    (h : Analyzed env b curr insn c st ls insn') (ht : typeStep env.maxLocals insn f = some g)
    (hs : c.stack = f.stack) :
    st = g.stack ∧ (Swizzles env.maxLocals env.swizzle → c.locals.length = env.maxLocals →
      AgreesLocals env.swizzle c.locals f.locals → AgreesLocals env.swizzle ls g.locals) := by
  cases h with
  | load hk hj hindex hlocal =>
    simp only [typeStep, hk] at ht
    split at ht
    · cases ht
      exact ⟨by simp [pushKind, loadKind_ne_void hk, hs], fun _ _ h => h⟩
    · cases ht
  | store hl hk hst hj hindex =>
    simp only [typeStep, hl, hk] at ht
    split at ht
    · obtain ⟨st', hst', rfl⟩ := Option.map_eq_some_iff.mp ht
      rw [← hs, hst, takeKinds_eq_some] at hst'
      refine ⟨by simpa using hst'.1, fun hz hlen hag => hag.store hz hlen hj⟩
    · cases ht
  | iinc hk hj hindex =>
    simp only [typeStep, hk, loadKind, storeKind] at ht
    simp only [reduceCtorEq, or_self, if_false, if_true] at ht
    split at ht
    · cases ht
      exact ⟨hs, fun _ _ h => h⟩
    · cases ht
  | put hk hst =>
    rcases hk with hk | hk
    · simp only [typeStep, hk, loadKind, storeKind] at ht
      simp only [reduceCtorEq, or_self, if_false, if_true] at ht
      obtain ⟨st', hst', rfl⟩ := Option.map_eq_some_iff.mp ht
      rw [← hs, hst, takeKinds_eq_some] at hst'
      simp only [hk, if_true, List.cons_append, List.nil_append, List.cons.injEq] at hst'
      exact ⟨hst'.1.2.2, fun _ _ h => h⟩
    · simp only [typeStep, hk, loadKind, storeKind] at ht
      simp only [reduceCtorEq, or_self, if_false, if_true] at ht
      obtain ⟨st', hst', rfl⟩ := Option.map_eq_some_iff.mp ht
      rw [← hs, hst, takeKinds_eq_some] at hst'
      simp only [hk, reduceCtorEq, if_false, List.cons_append, List.nil_append,
        List.cons.injEq] at hst'
      exact ⟨hst'.1.2, fun _ _ h => h⟩
  | shuffle hk hst =>
    have hform : ∃ st', shuffleKinds insn.kind f.stack = some st' ∧ g = { f with stack := st' } := by
      cases hkind : insn.kind <;>
        first
        | (rw [hkind] at hk; cases hk; done)
        | (simp only [typeStep, hkind, loadKind, storeKind, InsnKind.isShuffle, reduceCtorEq,
            or_self, if_false, if_true, Option.map_eq_some_iff] at ht
           obtain ⟨st', hst', rfl⟩ := ht
           exact ⟨st', hst', rfl⟩)
    obtain ⟨st', hst', rfl⟩ := hform
    rw [← hs] at hst'
    exact ⟨(analyzeShuffle_form hst hst').1, fun _ _ h => h⟩
  | effect hl hsk hi hp hk he hst =>
    simp only [typeStep, hl, hsk, hi, hp.1, hp.2, hk, he, if_false, Bool.false_eq_true,
      Option.bind_some] at ht
    split at ht
    · cases ht
    obtain ⟨st', hst', rfl⟩ := Option.map_eq_some_iff.mp ht
    rw [← hs, hst, takeKinds_eq_some] at hst'
    rw [List.append_cancel_left hst'.1]
    exact ⟨rfl, fun _ _ h => h⟩

theorem passFrom_ok {env : AnalysisEnv} {b : Bool} {i : ℕ} {insn : Instruction}
    {rest : List Instruction} {s s' : PassState}
    (h : passFrom env b i (insn :: rest) s = .ok s') :
    ∃ s₁ r, s.arrive env i insn = .ok s₁ ∧ analyzeInstruction env b i insn s₁.ctx = .ok r ∧
      passFrom env b (i + 1) rest ⟨r.1, s₁.iter, insn.kind.terminates,
        s₁.states ++ [⟨s₁.ctx.stack, s₁.ctx.locals⟩], s₁.code ++ [r.2]⟩ = .ok s' := by
  simp only [passFrom, bind, Except.bind] at h
  split at h
  · cases h
  rename_i s₁ hs₁
  split at h
  · cases h
  rename_i r hr
  exact ⟨s₁, r, hs₁, hr, h⟩

end TraceJvm
