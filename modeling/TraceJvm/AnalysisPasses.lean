import TraceJvm.MethodTyping

/-! The passes over a method without a stack map table. Known stacks never differ from those of the
typing, so that only locals lose kinds; the pass that rewrites repeats a pass that lost none. -/
namespace TraceJvm

open Function List

/-- The instruction up to what a pass writes back before the rewriting. -/
def Instruction.SameOp (insn insn₂ : Instruction) : Prop :=
  ∃ delta before after,
    insn₂ = { insn with delta := delta, tosBefore := before, tosAfter := after }

theorem Instruction.SameOp.self (insn : Instruction) : insn.SameOp insn := ⟨_, _, _, rfl⟩

variable {a b : Instruction}

theorem Instruction.SameOp.trans {c : Instruction} (h : a.SameOp b) (k : b.SameOp c) :
    a.SameOp c := by
  obtain ⟨_, _, _, rfl⟩ := h
  obtain ⟨_, _, _, rfl⟩ := k
  exact ⟨_, _, _, rfl⟩

theorem Instruction.SameOp.kind_eq (h : a.SameOp b) : b.kind = a.kind := by
  obtain ⟨_, _, _, rfl⟩ := h
  rfl

theorem Instruction.SameOp.originalPc_eq (h : a.SameOp b) :
    b.originalPc = a.originalPc := by
  obtain ⟨_, _, _, rfl⟩ := h
  rfl

theorem Instruction.SameOp.branchTargets_eq (h : a.SameOp b) :
    b.branchTargets = a.branchTargets := by
  obtain ⟨_, _, _, rfl⟩ := h
  rfl

variable {curr : ℕ} {insn insn₂ insn' : Instruction} {st : List TypeKind}

theorem Rewritten.of_sameOp {maxLocals : ℕ} {swizzle : List ℕ} (h : insn.SameOp insn₂)
    (hr : Rewritten maxLocals swizzle curr insn₂ st insn') :
    Rewritten maxLocals swizzle curr insn st insn' := by
  obtain ⟨_, _, _, rfl⟩ := h
  cases hr with
  | access hk hj => exact .access hk hj
  | iinc hk hj => exact .iinc hk hj
  | shuffle hk hst => exact .shuffle hk hst
  | other hl hs hi hk hd => exact .other hl hs hi hk hd

variable {env : AnalysisEnv} {insn insn' : Instruction} {c : AnalysisCtx}

theorem Analyzed.sameOp {ls : List TypeKind} (h : Analyzed env false curr insn c st ls insn') :
    insn.SameOp insn' := by
  cases h with
  | load _ _ hindex _ | store _ _ _ _ hindex | iinc _ _ hindex =>
    subst hindex
    exact ⟨_, _, _, rfl⟩
  | put _ _ => exact .self _
  | shuffle _ _ => exact ⟨_, _, _, rfl⟩
  | effect _ _ _ _ _ _ _ => exact ⟨_, _, _, rfl⟩

def AnalysisCtx.Live (T : ℕ → Option KindFrame) (c : AnalysisCtx) : Prop :=
  ∀ t ls, c.knownLocals t = some ls → ∃ f, T t = some f

section Live

variable {T : ℕ → Option KindFrame} {c : AnalysisCtx}

theorem AnalysisCtx.Live.intersectLocals {t : ℕ} {f : KindFrame} (h : c.Live T)
    (hf : T t = some f) : (c.intersectLocals t).Live T := by
  intro u ls hu
  simp only [AnalysisCtx.intersectLocals] at hu
  by_cases hut : u = t
  · exact ⟨f, hut ▸ hf⟩
  · rw [update_of_ne hut] at hu
    exact h u ls hu

theorem AnalysisCtx.Live.pushBranchTargets {b : Bool} {ts : List ℕ} (h : c.Live T)
    (hf : ∀ t ∈ ts, ∃ f, T t = some f) :
    (ts.foldl (AnalysisCtx.pushBranchTarget b curr) c).Live T := by
  induction ts generalizing c with
  | nil => exact h
  | cons t ts ih =>
    obtain ⟨f, hft⟩ := hf t (by simp)
    have hedge : AnalysisCtx.Live T { c with edges := c.edges ++ [(curr, t)] } := h
    refine ih ?_ fun u hu => hf u (by simp [hu])
    unfold AnalysisCtx.pushBranchTarget
    split
    · have hmeet : (AnalysisCtx.intersectStack { c with edges := c.edges ++ [(curr, t)] } t
        c.stack).Live T := hedge
      exact hmeet.intersectLocals hft
    · exact hedge

variable {i : ℕ}

theorem intersectExceptionHandlers_keeps {P : AnalysisCtx → Prop}
    (h : P c) (hstep : ∀ e ∈ env.exceptionTable, e.covers i → ∀ c, P c →
      P (c.intersectLocals e.handlerInsn)) : P (c.intersectExceptionHandlers env i) := by
  unfold AnalysisCtx.intersectExceptionHandlers
  apply List.foldlRecOn _ _ h
  intro c hc e he
  split
  · rename_i hcov
    exact hstep e he hcov c hc
  · exact hc

theorem AnalysisCtx.Live.intersectExceptionHandlers (h : c.Live T)
    (hf : ∀ e ∈ env.exceptionTable, e.covers i → ∃ f, T e.handlerInsn = some f) :
    (c.intersectExceptionHandlers env i).Live T := by
  apply intersectExceptionHandlers_keeps h
  intro e he hcov c hc
  obtain ⟨f, hft⟩ := hf e he hcov
  exact hc.intersectLocals hft

end Live

structure KnownOk (maxLocals : ℕ) (T : ℕ → Option KindFrame) (c : AnalysisCtx) : Prop where
  stackOf : ∀ t st f, c.knownStacks t = some st → T t = some f → st.reverse = f.stack
  live : c.Live T
  lengths : ∀ t ls, c.knownLocals t = some ls → ls.length = maxLocals
  locals : c.locals.length = maxLocals

section Known

variable {maxLocals : ℕ} {T : ℕ → Option KindFrame} {c : AnalysisCtx}

theorem zipWith_self (l : List TypeKind) :
    List.zipWith (fun a b => if a ≠ b ∧ a ≠ .void then .void else a) l l = l := by
  induction l with
  | nil => rfl
  | cons a l ih => simp

variable {t : ℕ}

theorem KnownOk.intersectStack (h : KnownOk maxLocals T c)
    (hst : ∀ f, T t = some f → st = f.stack) : KnownOk maxLocals T (c.intersectStack t st) := by
  refine { h with stackOf := fun u su f hu hf => ?_ }
  simp only [AnalysisCtx.intersectStack] at hu
  by_cases hut : u = t
  · subst hut
    rw [update_self] at hu
    cases hu
    cases hk : c.knownStacks u with
    | none => simpa [intersectState] using hst f hf
    | some d =>
      have hd : d = st.reverse := by
        rw [hst f hf, ← h.stackOf u d f hk hf, reverse_reverse]
      rw [hd, intersectState, zipWith_self, reverse_reverse]
      exact hst f hf
  · rw [update_of_ne hut] at hu
    exact h.stackOf u su f hu hf

theorem KnownOk.intersectLocals {f : KindFrame} (h : KnownOk maxLocals T c)
    (hf : T t = some f) : KnownOk maxLocals T (c.intersectLocals t) := by
  have hlen : (intersectState (c.knownLocals t) c.locals).1.length = maxLocals := by
    cases hk : c.knownLocals t with
    | none => exact h.locals
    | some d => simp [intersectState, h.lengths t d hk, h.locals]
  refine ⟨h.stackOf, h.live.intersectLocals hf, fun u ls hu => ?_, h.locals⟩
  simp only [AnalysisCtx.intersectLocals] at hu
  by_cases hut : u = t
  · subst hut
    rw [update_self] at hu
    exact Option.some.inj hu ▸ hlen
  · rw [update_of_ne hut] at hu
    exact h.lengths u ls hu

theorem KnownOk.intersectExceptionHandlers {i : ℕ} (h : KnownOk maxLocals T c)
    (hf : ∀ e ∈ env.exceptionTable, e.covers i → ∃ f, T e.handlerInsn = some f) :
    KnownOk maxLocals T (c.intersectExceptionHandlers env i) := by
  apply intersectExceptionHandlers_keeps h
  intro e he hcov c hc
  obtain ⟨f, hft⟩ := hf e he hcov
  exact hc.intersectLocals hft

end Known

variable {b : Bool} {c' : AnalysisCtx}

/-- An instruction changes the stack and the locals, and then tells its targets. -/
theorem analyzeEffect_targets (h : analyzeEffect env b curr insn c = .ok (c', insn')) :
    c' = insn.branchTargets.foldl (AnalysisCtx.pushBranchTarget env.missingSmt curr)
      { c with stack := c'.stack, locals := c'.locals } := by
  have hnone : (loadKind insn.kind).isSome ∨ (storeKind insn.kind).isSome ∨ insn.kind = .iinc →
      insn.branchTargets = [] := by
    intro hk
    obtain ⟨-, h2, h3, h4, h5⟩ := accesses_plain hk
    simp [branchTargets_eq h5, h2, h3, h4]
  simp only [analyzeEffect, bind, Except.bind, pure, Except.pure] at h
  split at h
  · rename_i k _ hk
    rw [hnone (.inl (by simp [hk]))]
    repeat' split at h
    all_goals first | (cases h; done) | (cases h; rfl)
  · rename_i k hl hk
    rw [hnone (.inr (.inl (by simp [hk])))]
    repeat' split at h
    all_goals first | (cases h; done) | (cases h; rfl)
  · split at h
    · rename_i hi
      rw [hnone (.inr (.inr hi))]
      split at h
      · cases h
      · cases h
        rfl
    split at h
    · rename_i hp
      have htargets : insn.branchTargets = [] := by
        rcases hp with hp | hp <;> simp [Instruction.branchTargets, hp]
      rw [htargets]
      repeat' split at h
      all_goals first | (cases h; done) | (cases h; rfl)
    split at h
    · rename_i hsh
      obtain ⟨-, -, -, -, h2, h3, h4⟩ := loadKind_of_isShuffle hsh
      have hj : insn.kind ≠ .jsr := by
        intro hj
        rw [hj] at hsh
        cases hsh
      rw [branchTargets_eq hj]
      simp only [h2, h3, h4, or_self, Bool.false_eq_true, if_false]
      split at h
      · cases h
      · cases h
        rfl
    have hfold : ∀ st : List TypeKind,
        insn.branchTargets.foldl (AnalysisCtx.pushBranchTarget env.missingSmt curr)
          { c with stack := st } = c' →
        c' = insn.branchTargets.foldl (AnalysisCtx.pushBranchTarget env.missingSmt curr)
          { c with stack := c'.stack, locals := c'.locals } := by
      rintro st rfl
      rw [(foldl_pushBranchTarget _).1, (foldl_pushBranchTarget _).2]
    repeat' split at h
    all_goals first
      | (cases h; done)
      | (cases h; exact hfold _ rfl)

theorem analyzeInstruction_targets (h : analyzeInstruction env b curr insn c = .ok (c', insn')) :
    c' = insn.branchTargets.foldl (AnalysisCtx.pushBranchTarget env.missingSmt curr)
      { c with stack := c'.stack, locals := c'.locals } := by
  simp only [analyzeInstruction, bind, Except.bind, pure, Except.pure] at h
  split at h
  · cases h
  split at h
  · cases h
  rename_i r hr
  split at h
  · cases h
  cases h
  have heq := analyzeEffect_targets hr
  exact heq

variable {b₂ : Bool} {insn₂' : Instruction} {c₂' : AnalysisCtx}

/-- The state after an instruction depends neither on the rewriting nor on what an earlier pass
wrote back. -/
theorem analyzeEffect_congr {c₂ : AnalysisCtx} (hi : insn.SameOp insn₂)
    (hs : c₂.stack = c.stack) (hl : c₂.locals = c.locals)
    (h : analyzeEffect env b curr insn c = .ok (c', insn'))
    (h₂ : analyzeEffect env b₂ curr insn₂ c₂ = .ok (c₂', insn₂')) :
    c₂'.stack = c'.stack ∧ c₂'.locals = c'.locals := by
  obtain ⟨delta, before, after, rfl⟩ := hi
  have hstack : ∀ ts : List ℕ, ∀ e e₂ : AnalysisCtx, e₂.stack = e.stack → e₂.locals = e.locals →
      (ts.foldl (AnalysisCtx.pushBranchTarget env.missingSmt curr) e₂).stack =
        (ts.foldl (AnalysisCtx.pushBranchTarget env.missingSmt curr) e).stack ∧
      (ts.foldl (AnalysisCtx.pushBranchTarget env.missingSmt curr) e₂).locals =
        (ts.foldl (AnalysisCtx.pushBranchTarget env.missingSmt curr) e).locals := by
    intro ts e e₂ he hle
    simp only [(foldl_pushBranchTarget ts).1, (foldl_pushBranchTarget ts).2]
    exact ⟨he, hle⟩
  simp only [analyzeEffect, swizzleLocal, hs, hl, bind, Except.bind, pure, Except.pure] at h h₂
  cases hlk : loadKind insn.kind with
  | some k =>
    simp only [hlk] at h h₂
    cases hj : env.swizzle[insn.index]? with
    | none =>
        simp only [hj] at h
        cases h
    | some j =>
      simp only [hj] at h h₂
      cases hp : pushEntry env.maxStack (c.locals.getD j .void) c.stack with
      | error e =>
        simp only [hp] at h
        cases h
      | ok st =>
        simp only [hp] at h h₂
        split at h
        · cases h
        rename_i hkind
        rw [if_neg hkind] at h₂
        cases h
        cases h₂
        exact ⟨rfl, rfl⟩
  | none =>
    cases hsk : storeKind insn.kind with
    | some k =>
      simp only [hlk, hsk] at h h₂
      cases hp : popKinds [k] c.stack with
      | error e =>
        simp only [hp] at h
        cases h
      | ok st =>
        simp only [hp] at h h₂
        cases hj : env.swizzle[insn.index]? with
        | none =>
        simp only [hj] at h
        cases h
        | some j =>
          simp only [hj] at h h₂
          cases h
          cases h₂
          exact ⟨rfl, rfl⟩
    | none =>
      simp only [hlk, hsk] at h h₂
      split at h
      · rename_i hk
        rw [if_pos hk] at h₂
        cases hj : env.swizzle[insn.index]? with
        | none =>
        simp only [hj] at h
        cases h
        | some j =>
          simp only [hj] at h h₂
          cases h
          cases h₂
          exact ⟨hs, hl⟩
      rename_i hk
      rw [if_neg hk] at h₂
      split at h
      · rename_i hp
        rw [if_pos hp] at h₂
        cases hv : popVal c.stack with
        | error e =>
          simp only [hv] at h
          cases h
        | ok r =>
          simp only [hv] at h h₂
          split at h
          · cases h
          rename_i st hst
          rw [hst] at h₂
          cases h
          cases h₂
          exact ⟨rfl, rfl⟩
      rename_i hp
      rw [if_neg hp] at h₂
      split at h
      · rename_i hsh
        rw [if_pos hsh] at h₂
        cases ha : analyzeShuffle env.maxStack insn.kind c.stack with
        | error e =>
          simp only [ha] at h
          cases h
        | ok r =>
          simp only [ha] at h h₂
          cases h
          cases h₂
          exact ⟨rfl, rfl⟩
      rename_i hsh
      rw [if_neg hsh] at h₂
      have heff : stackEffect { insn with delta := delta, tosBefore := before, tosAfter := after } =
          stackEffect insn := rfl
      rw [heff] at h₂
      cases he : stackEffect insn with
      | none =>
        simp only [he] at h
        cases h
      | some e =>
        simp only [he] at h h₂
        cases hp : popKinds e.1 c.stack with
        | error e =>
          simp only [hp] at h
          cases h
        | ok st =>
          simp only [hp] at h h₂
          by_cases hv : e.2 = .void
          · rw [if_pos hv] at h h₂
            cases h
            cases h₂
            exact hstack _ _ _ rfl rfl
          · rw [if_neg hv] at h h₂
            cases hpush : pushEntry env.maxStack e.2 st with
            | error e =>
              simp only [hpush] at h
              cases h
            | ok st' =>
              simp only [hpush] at h h₂
              cases h
              cases h₂
              exact hstack _ _ _ rfl rfl

structure SameKnown (c c₂ : AnalysisCtx) : Prop where
  stackOf : c₂.knownStacks = c.knownStacks
  locals : c₂.knownLocals = c.knownLocals
  changed : c₂.changed = c.changed

structure SameState (c c₂ : AnalysisCtx) : Prop extends SameKnown c c₂ where
  stack : c₂.stack = c.stack
  current : c₂.locals = c.locals

section Congr

variable {c c₂ : AnalysisCtx}

theorem SameState.intersectStack (h : SameState c c₂) (t : ℕ) {st₂ : List TypeKind}
    (hst : st₂ = st) : SameState (c.intersectStack t st) (c₂.intersectStack t st₂) := by
  subst hst
  obtain ⟨⟨h1, h2, h3⟩, h4, h5⟩ := h
  constructor
  · constructor <;> simp [AnalysisCtx.intersectStack, h1, h2, h3]
  all_goals simp [AnalysisCtx.intersectStack, h4, h5]

theorem SameState.intersectLocals (h : SameState c c₂) (t : ℕ) :
    SameState (c.intersectLocals t) (c₂.intersectLocals t) := by
  obtain ⟨⟨h1, h2, h3⟩, h4, h5⟩ := h
  constructor
  · constructor <;> simp [AnalysisCtx.intersectLocals, h1, h2, h3, h5]
  all_goals simp [AnalysisCtx.intersectLocals, h4, h5]

theorem SameState.pushBranchTarget (h : SameState c c₂) (b : Bool) (curr t : ℕ) :
    SameState (c.pushBranchTarget b curr t) (c₂.pushBranchTarget b curr t) := by
  have hedge : SameState { c with edges := c.edges ++ [(curr, t)] }
      { c₂ with edges := c₂.edges ++ [(curr, t)] } :=
    ⟨{ h with }, h.stack, h.current⟩
  unfold AnalysisCtx.pushBranchTarget
  split
  · exact (hedge.intersectStack t h.stack).intersectLocals t
  · exact hedge

theorem SameState.pushBranchTargets (h : SameState c c₂) (b : Bool) (curr : ℕ) (ts : List ℕ) :
    SameState (ts.foldl (AnalysisCtx.pushBranchTarget b curr) c)
      (ts.foldl (AnalysisCtx.pushBranchTarget b curr) c₂) := by
  induction ts generalizing c c₂ with
  | nil => exact h
  | cons t ts ih => exact ih (h.pushBranchTarget b curr t)

theorem SameState.intersectExceptionHandlers (h : SameState c c₂) (env : AnalysisEnv) (i : ℕ) :
    SameState (c.intersectExceptionHandlers env i) (c₂.intersectExceptionHandlers env i) := by
  unfold AnalysisCtx.intersectExceptionHandlers
  induction env.exceptionTable generalizing c c₂ with
  | nil => exact h
  | cons e es ih =>
    rw [foldl_cons, foldl_cons]
    apply ih
    split
    · exact h.intersectLocals _
    · exact h

theorem analyzeInstruction_congr (hi : insn.SameOp insn₂)
    (hc : SameState c c₂) (h : analyzeInstruction env b curr insn c = .ok (c', insn'))
    (h₂ : analyzeInstruction env b₂ curr insn₂ c₂ = .ok (c₂', insn₂')) : SameState c' c₂' := by
  simp only [analyzeInstruction, bind, Except.bind, pure, Except.pure] at h h₂
  split at h
  · cases h
  rename_i before _
  split at h
  · cases h
  rename_i r hr
  split at h
  · cases h
  cases h
  split at h₂
  · cases h₂
  rename_i before₂ _
  split at h₂
  · cases h₂
  rename_i r₂ hr₂
  split at h₂
  · cases h₂
  cases h₂
  have hop : Instruction.SameOp { insn with tosBefore := before }
      { insn₂ with tosBefore := before₂ } := by
    obtain ⟨_, _, _, rfl⟩ := hi
    exact ⟨_, _, _, rfl⟩
  obtain ⟨hs, hl⟩ := analyzeEffect_congr hop hc.stack hc.current hr hr₂
  have hstate : SameState { c with stack := r.1.stack, locals := r.1.locals }
      { c₂ with stack := r₂.1.stack, locals := r₂.1.locals } :=
    ⟨{ hc with }, hs, hl⟩
  have hfold := hstate.pushBranchTargets env.missingSmt curr insn.branchTargets
  rw [analyzeEffect_targets hr, analyzeEffect_targets hr₂]
  have htargets₂ : Instruction.branchTargets { insn₂ with tosBefore := before₂ } =
      insn.branchTargets := hi.branchTargets_eq
  rw [htargets₂]
  exact hfold

variable {i : ℕ} {s s₂ s' s₂' : PassState}

/-- Two passes arrive at an instruction alike, also where a frame replaces what they carry. -/
theorem arrive_congr (hi : insn.SameOp insn₂) (hiter : s₂.iter = s.iter)
    (hterm : s₂.terminated = s.terminated) (hk : SameKnown s.ctx s₂.ctx)
    (hlen : s₂.ctx.locals.length = s.ctx.locals.length)
    (hc : insn.originalPc = s.iter.pc ∨ SameState s.ctx s₂.ctx)
    (h : s.arrive env i insn = .ok s') (h₂ : s₂.arrive env i insn₂ = .ok s₂') :
    SameState s'.ctx s₂'.ctx ∧ s₂'.iter = s'.iter := by
  have hframe : SameState (s.ctx.useStackMapFrame env s.iter)
      (s₂.ctx.useStackMapFrame env s₂.iter) := by
    refine ⟨{ hk with }, ?_, ?_⟩
    · simp [AnalysisCtx.useStackMapFrame, hiter]
    · simp [AnalysisCtx.useStackMapFrame, hiter, hlen]
  unfold PassState.arrive at h h₂
  rw [hi.originalPc_eq, hiter, hterm] at h₂
  split at h
  · rename_i heq
    rw [if_pos heq] at h₂
    rw [hiter] at hframe
    dsimp only at h h₂
    split at h
    · rename_i hnext
      rw [if_pos hnext] at h₂
      split at h
      · cases h
      rename_i it hit
      rw [hit] at h₂
      cases h
      cases h₂
      exact ⟨hframe, rfl⟩
    · rename_i hnext
      rw [if_neg hnext] at h₂
      cases h
      cases h₂
      exact ⟨hframe, rfl⟩
  · rename_i hne
    rw [if_neg hne] at h₂
    have hc := hc.resolve_left hne
    split at h
    · rename_i hsmt
      rw [if_pos hsmt] at h₂
      split at h
      · rename_i ht
        rw [if_pos ht, hk.stackOf, hk.locals] at h₂
        split at h
        · rename_i st ls hst hls
          rw [hst, hls] at h₂
          cases h
          cases h₂
          have hknown : SameState { s.ctx with stack := st.reverse, locals := ls }
              { s₂.ctx with stack := st.reverse, locals := ls } :=
            ⟨{ hk with }, rfl, rfl⟩
          exact ⟨hknown.intersectExceptionHandlers env i, rfl⟩
        · cases h
      · rename_i ht
        rw [if_neg ht] at h₂
        cases h
        cases h₂
        exact ⟨((hc.intersectStack i hc.stack).intersectLocals i).intersectExceptionHandlers env i,
          rfl⟩
    · rename_i hsmt
      rw [if_neg hsmt] at h₂
      cases h
      cases h₂
      exact ⟨hc, hiter⟩

/-- A pass over the code that another one has written back ends with the same knowledge. -/
theorem passFrom_congr {rest rest₂ : List Instruction}
    (hr : List.Forall₂ Instruction.SameOp rest rest₂)
    (hiter : s₂.iter = s.iter) (hterm : s₂.terminated = s.terminated)
    (hk : SameKnown s.ctx s₂.ctx) (hlen : s₂.ctx.locals.length = s.ctx.locals.length)
    (hc : (∀ insn ∈ rest.head?, insn.originalPc = s.iter.pc) ∨ SameState s.ctx s₂.ctx)
    (h : passFrom env b i rest s = .ok s') (h₂ : passFrom env b₂ i rest₂ s₂ = .ok s₂') :
    SameKnown s'.ctx s₂'.ctx := by
  induction hr generalizing i s s₂ with
  | nil =>
    cases h
    cases h₂
    exact hk
  | @cons insn insn₂ rest rest₂ hi hr ih =>
    obtain ⟨s₁, r, hs₁, hr, h⟩ := passFrom_ok h
    obtain ⟨s₁₂, r₂, hs₁₂, hr₂, h₂⟩ := passFrom_ok h₂
    obtain ⟨harr, hit⟩ := arrive_congr hi hiter hterm hk hlen (hc.imp_left fun h => h insn rfl)
      hs₁ hs₁₂
    have hsame := analyzeInstruction_congr hi harr hr hr₂
    refine ih ?_ ?_ ?_ ?_ ?_ h h₂
    · exact hit
    · exact congrArg InsnKind.terminates hi.kind_eq
    · exact hsame.toSameKnown
    · exact congrArg List.length hsame.current
    · exact .inr hsame

end Congr

variable {i : ℕ} {s s' : PassState}

theorem arrive_recorded
    (h : s.arrive env i insn = .ok s') : s'.states = s.states ∧ s'.code = s.code := by
  simp only [PassState.arrive] at h
  repeat' split at h
  all_goals first | (cases h; done) | (cases h; exact ⟨rfl, rfl⟩)

theorem passFrom_sameOp {rest : List Instruction} (h : passFrom env false i rest s = .ok s') :
    ∃ os, s'.code = s.code ++ os ∧ List.Forall₂ Instruction.SameOp rest os := by
  induction rest generalizing i s with
  | nil =>
    cases h
    exact ⟨[], by simp, .nil⟩
  | cons insn rest ih =>
    obtain ⟨s₁, r, hs₁, hr, h⟩ := passFrom_ok h
    obtain ⟨os, hos, hall⟩ := ih h
    obtain ⟨before, after, insn₁, -, -, hana, hinsn⟩ := analyzeInstruction_analyzed hr
    have hop : insn.SameOp r.2 := by
      obtain ⟨_, _, _, rfl⟩ := hana.sameOp
      exact ⟨_, _, _, hinsn⟩
    refine ⟨r.2 :: os, ?_, .cons hop hall⟩
    rw [hos, (arrive_recorded hs₁).2]
    simp

section Frozen

variable {maxLocals : ℕ} {T : ℕ → Option KindFrame} {c : AnalysisCtx}
  {src : List TypeKind}

theorem zipWith_of_any_eq_false {d : List TypeKind} (hlen : d.length = src.length)
    (h : ((d.zip src).any fun p => p.1 ≠ p.2 ∧ p.1 ≠ .void) = false) :
    List.zipWith (fun a b => if a ≠ b ∧ a ≠ .void then .void else a) d src = d := by
  induction d generalizing src with
  | nil => rfl
  | cons a d ih =>
    cases src with
    | nil => simp at hlen
    | cons x src =>
      simp only [zip_cons_cons, any_cons, Bool.or_eq_false_iff,
        decide_eq_false_iff_not] at h
      rw [zipWith_cons_cons, if_neg h.1, ih (by simpa using hlen) h.2]

theorem intersectState_frozen {dst : Option (List TypeKind)}
    (hlen : ∀ d, dst = some d → d.length = src.length) (h : (intersectState dst src).2 = false) :
    dst = some (intersectState dst src).1 := by
  cases dst with
  | none => cases h
  | some d => rw [intersectState, zipWith_of_any_eq_false (hlen d rfl) h]

variable {t : ℕ} {f : KindFrame}

theorem KnownOk.intersectStack_frozen
    (h : KnownOk maxLocals T c) (hf : T t = some f) (hst : st = f.stack)
    (hch : (c.intersectStack t st).changed = false) : SameKnown c (c.intersectStack t st) := by
  have hch' : c.changed = false ∧
      (intersectState (c.knownStacks t) st.reverse).2 = false := by
    simpa [AnalysisCtx.intersectStack] using hch
  have hlen : ∀ d, c.knownStacks t = some d → d.length = st.reverse.length := by
    intro d hd
    rw [hst, ← h.stackOf t d f hd hf, reverse_reverse]
  have hsame := intersectState_frozen hlen hch'.2
  refine ⟨?_, rfl, hch.trans hch'.1.symm⟩
  simp only [AnalysisCtx.intersectStack]
  rw [← hsame, update_eq_self]

theorem KnownOk.intersectLocals_frozen (h : KnownOk maxLocals T c)
    (hch : (c.intersectLocals t).changed = false) : SameKnown c (c.intersectLocals t) := by
  have hch' : c.changed = false ∧ (intersectState (c.knownLocals t) c.locals).2 = false := by
    simpa [AnalysisCtx.intersectLocals] using hch
  have hlen : ∀ d, c.knownLocals t = some d → d.length = c.locals.length := by
    intro d hd
    rw [h.lengths t d hd, h.locals]
  have hsame := intersectState_frozen hlen hch'.2
  refine ⟨rfl, ?_, hch.trans hch'.1.symm⟩
  simp only [AnalysisCtx.intersectLocals]
  rw [← hsame, update_eq_self]

theorem SameKnown.trans {a b : AnalysisCtx} (h : SameKnown a b) (k : SameKnown b c) :
    SameKnown a c :=
  ⟨k.stackOf.trans h.stackOf, k.locals.trans h.locals, k.changed.trans h.changed⟩

variable {b : Bool}

/-- A jump keeps what is known at the frames of the verifier, and if nothing is found to change, all
that is known. -/
theorem KnownOk.pushBranchTarget
    (h : KnownOk maxLocals T c) (hf : T t = some f) (hs : c.stack = f.stack) :
    KnownOk maxLocals T (c.pushBranchTarget b curr t) ∧
      ((c.pushBranchTarget b curr t).changed = false →
        SameKnown c (c.pushBranchTarget b curr t)) := by
  have hedge : KnownOk maxLocals T { c with edges := c.edges ++ [(curr, t)] } :=
    { h with }
  have hstart : SameKnown c { c with edges := c.edges ++ [(curr, t)] } := ⟨rfl, rfl, rfl⟩
  unfold AnalysisCtx.pushBranchTarget
  split
  · have hstack : KnownOk maxLocals T
        (AnalysisCtx.intersectStack { c with edges := c.edges ++ [(curr, t)] } t c.stack) := by
      refine hedge.intersectStack fun g hg => ?_
      cases hf.symm.trans hg
      exact hs
    refine ⟨hstack.intersectLocals hf, fun hch => ?_⟩
    have hlocals := hstack.intersectLocals_frozen hch
    have hlost := hedge.intersectStack_frozen hf hs (hlocals.changed ▸ hch)
    exact (hstart.trans hlost).trans hlocals
  · exact ⟨hedge, fun _ => hstart⟩

variable {ts : List ℕ}

theorem pushBranchTargets_changed
    (h : (ts.foldl (AnalysisCtx.pushBranchTarget b curr) c).changed = false) :
    c.changed = false := by
  induction ts generalizing c with
  | nil => exact h
  | cons t ts ih =>
    have hone := ih h
    unfold AnalysisCtx.pushBranchTarget at hone
    split at hone
    · simp only [AnalysisCtx.intersectLocals, AnalysisCtx.intersectStack, Bool.or_eq_false_iff]
        at hone
      exact hone.1.1
    · exact hone

theorem KnownOk.pushBranchTargets
    (h : KnownOk maxLocals T c) (hf : ∀ t ∈ ts, ∃ f, T t = some f ∧ c.stack = f.stack) :
    KnownOk maxLocals T (ts.foldl (AnalysisCtx.pushBranchTarget b curr) c) ∧
      ((ts.foldl (AnalysisCtx.pushBranchTarget b curr) c).changed = false →
        SameKnown c (ts.foldl (AnalysisCtx.pushBranchTarget b curr) c)) := by
  induction ts generalizing c with
  | nil => exact ⟨h, fun _ => ⟨rfl, rfl, rfl⟩⟩
  | cons t ts ih =>
    obtain ⟨f, hft, hs⟩ := hf t (by simp)
    have hone : (c.pushBranchTarget b curr t).stack = c.stack := (foldl_pushBranchTarget [t]).1
    obtain ⟨hok, hsame⟩ := h.pushBranchTarget hft hs
    obtain ⟨hoks, hsames⟩ := ih hok fun u hu => by
      obtain ⟨g, hg, hsg⟩ := hf u (by simp [hu])
      exact ⟨g, hg, hone.trans hsg⟩
    exact ⟨hoks, fun hch => (hsame (pushBranchTargets_changed hch)).trans (hsames hch)⟩

theorem KnownOk.intersectExceptionHandlers_frozen (h : KnownOk maxLocals T c)
    (hf : ∀ e ∈ env.exceptionTable, e.covers i → ∃ f, T e.handlerInsn = some f)
    (hch : (c.intersectExceptionHandlers env i).changed = false) :
    SameKnown c (c.intersectExceptionHandlers env i) := by
  unfold AnalysisCtx.intersectExceptionHandlers at hch ⊢
  generalize env.exceptionTable = es at hf hch
  induction es generalizing c with
  | nil => exact ⟨rfl, rfl, rfl⟩
  | cons e es ih =>
    rw [foldl_cons] at hch ⊢
    have hone : KnownOk maxLocals T (if e.covers i then c.intersectLocals e.handlerInsn else c) := by
      split
      · rename_i hcov
        obtain ⟨f, hft⟩ := hf e (by simp) hcov
        exact h.intersectLocals hft
      · exact h
    have hrest := ih hone (fun e' he' => hf e' (by simp [he'])) hch
    have hch₁ := hrest.changed.symm.trans hch
    refine SameKnown.trans ?_ hrest
    split
    · rename_i hcov
      rw [if_pos hcov] at hch₁
      exact h.intersectLocals_frozen hch₁
    · exact ⟨rfl, rfl, rfl⟩

end Frozen

end TraceJvm
