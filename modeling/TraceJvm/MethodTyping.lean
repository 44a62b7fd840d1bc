import TraceJvm.AnalysisSoundness

/-! Typings of a method: a frame for every instruction that can be reached. A stack map table gives
one; for the class files that need no table the verifier infers one. -/
namespace TraceJvm

/-- The method type checks with the frame `T i` before instruction `i`. -/
structure Typing (m : CodeMethod) (T : ℕ → Option KindFrame) : Prop where
  inside : ∀ i f, T i = some f → ∃ insn, m.code[i]? = some insn
  entry : ∃ f, T 0 = some f ∧ (KindFrame.ofDeclared m.entryFrame).Assignable f
  step : ∀ i insn f, m.code[i]? = some insn → T i = some f →
    ∃ g, typeStep m.maxLocals insn f = some g ∧
      (∀ t ∈ insn.branchTargets, ∃ d, T t = some d ∧ g.Assignable d) ∧
      (insn.kind.terminates = false → ∃ d, T (i + 1) = some d ∧ g.Assignable d)
  handlers : ∀ i f, T i = some f → ∀ e ∈ m.exceptionTable, e.covers i →
    ∃ d, T e.handlerInsn = some d ∧ (⟨[.reference], f.locals⟩ : KindFrame).Assignable d

theorem KindFrame.assignable_self (f : KindFrame) : f.Assignable f :=
  ⟨List.forall₂_same.mpr fun _ _ => .inl rfl, fun _ => .inr rfl⟩

variable {all : List DeclaredFrame} {frames : List StackMapFrame} {m : CodeMethod}

/-- The frames of a stack map table give a typing. -/
theorem KindConsistent.typing (hall : m.declaredFrames frames = some all)
    (h : KindConsistent m all) : Typing m (kindsAt m.maxLocals m.code all) where
  inside _ _ hf := code_of_kindsAt h hf
  entry := by
    obtain ⟨d, hd⟩ := declaredAt_zero hall h.boundaries
    exact ⟨d, kindsAt_of_declaredAt hd, h.entry d hd⟩
  step := by
    intro i insn f hi hf
    obtain ⟨g, hg, hbranch, hnext⟩ := h.step i insn f hi hf
    refine ⟨g, hg, fun t ht => ?_, fun hterm => ?_⟩
    · obtain ⟨d, hd, hassign⟩ := hbranch t ht
      exact ⟨d, kindsAt_of_declaredAt hd, hassign⟩
    · cases hd : declaredAt m.code all (i + 1) with
      | some d => exact ⟨d, kindsAt_of_declaredAt hd, (hnext hterm).2 d hd⟩
      | none => exact ⟨g, kindsAt_succ hd hi hterm hf hg, g.assignable_self⟩
  handlers := by
    intro i f hf e he hcov
    obtain ⟨d, hd, hassign⟩ := h.handlers i f hf e he hcov
    exact ⟨d, kindsAt_of_declaredAt hd, hassign⟩

/-- A typing as the verifier by inference finds it: stacks that meet have the same kinds. The
protected ranges are not empty. -/
structure InferredTyping (m : CodeMethod) (T : ℕ → Option KindFrame) : Prop extends Typing m T where
  noVoid : ∀ i f, T i = some f → .void ∉ f.stack
  ranges : ∀ e ∈ m.exceptionTable, ∃ i, i < m.code.length ∧ e.covers i

/-- The method passes the verifier, with the frames `T`. -/
inductive Verified (m : CodeMethod) : (ℕ → Option KindFrame) → Prop where
  | table {frames : List StackMapFrame} {all : List DeclaredFrame} (hsmt : m.missingSmt = false)
      (henc : m.encodes frames) (hall : m.declaredFrames frames = some all)
      (hk : KindConsistent m all) (hstart : startsProperly frames) :
      Verified m (kindsAt m.maxLocals m.code all)
  | inferred {T : ℕ → Option KindFrame} (hsmt : m.missingSmt = true)
      (h : InferredTyping m T) : Verified m T

theorem Verified.typing {T : ℕ → Option KindFrame} (h : Verified m T) : Typing m T := by
  cases h with
  | table hsmt henc hall hk hstart => exact hk.typing hall
  | inferred hsmt h => exact h.toTyping

theorem KindFrame.Assignable.stack_eq {f g : KindFrame} (h : f.Assignable g)
    (hv : .void ∉ g.stack) : f.stack = g.stack := by
  have hs := h.stack
  generalize f.stack = fs at hs
  generalize g.stack = gs at hs hv
  induction hs with
  | nil => rfl
  | cons hab _ ih =>
    simp only [List.mem_cons, not_or] at hv
    rcases hab with rfl | rfl
    · rw [ih hv.2]
    · exact absurd rfl hv.1

/-- What the analysis leaves at an instruction with the frame `f`. -/
structure AnalysedAt (m : CodeMethod) (swizzle : List ℕ) (A : CodeAnalysis) (i : ℕ)
    (insn : Instruction) (f : KindFrame) (insn' : Instruction) (r : StackSummary) : Prop where
  output : A.code[i]? = some insn'
  state : A.states[i]? = some r
  stack : r.stack = f.stack
  rewritten : Rewritten m.maxLocals swizzle i insn f.stack insn'
  before : tosType f.stack = .ok insn'.tosBefore

variable {insn' : Instruction}

theorem Analyzed.tosBefore_eq {env : AnalysisEnv} {b : Bool} {curr : ℕ} {insn : Instruction}
    {c : AnalysisCtx} {st ls : List TypeKind} (h : Analyzed env b curr insn c st ls insn') :
    insn'.tosBefore = insn.tosBefore := by
  cases h <;> rfl

theorem analysedAt_of_analyzed {swizzle : List ℕ} {A : CodeAnalysis} {i : ℕ}
    {insn : Instruction} {c c' : AnalysisCtx} {f : KindFrame} (hout : A.code[i]? = some insn')
    (hstate : A.states[i]? = some ⟨c.stack, c.locals⟩) (hs : c.stack = f.stack)
    (h : analyzeInstruction (m.analysisEnv swizzle) true i insn c = .ok (c', insn')) :
    AnalysedAt m swizzle A i insn f insn' ⟨c.stack, c.locals⟩ := by
  obtain ⟨before, after, insn₁, hbefore, -, hana, rfl⟩ := analyzeInstruction_analyzed h
  refine ⟨hout, hstate, hs, hs ▸ hana.rewritten, ?_⟩
  have htos : insn₁.tosBefore = before := hana.tosBefore_eq
  rw [← hs, hbefore, ← htos]

theorem analysedAt_of_table {fuel : ℕ} {A : CodeAnalysis} (hsmt : m.missingSmt = false)
    (henc : m.encodes frames) (hall : m.declaredFrames frames = some all)
    (hk : KindConsistent m all) (hstart : startsProperly frames)
    (h : analyzeMethodCode fuel m = some (.ok A)) :
    ∃ swizzle locals, m.localsOnMethodEntry = .ok (swizzle, locals) ∧
      ∀ i insn f, m.code[i]? = some insn → kindsAt m.maxLocals m.code all i = some f →
        ∃ insn' r, AnalysedAt m swizzle A i insn f insn' r := by
  obtain ⟨swizzle, locals, hlocals, -, htrace⟩ :=
    analyzeMethodCode_trace hsmt henc hall hstart hk.boundaries h
  obtain ⟨hz, -, -⟩ := localsOnMethodEntry_swizzles hlocals
  refine ⟨swizzle, locals, hlocals, fun i insn f hi hf => ?_⟩
  obtain ⟨c, c', insn', hag⟩ := trace_agrees hz htrace i insn f hi hf
  exact ⟨_, _, analysedAt_of_analyzed hag.output hag.state hag.stack hag.analyzed⟩

end TraceJvm
