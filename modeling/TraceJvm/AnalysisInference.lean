import TraceJvm.AnalysisPasses

/-! The analysis of a method without a stack map table against the typing that the verifier by
inference finds: every pass visits the stacks of the typing, and the rewriting happens once. -/
namespace TraceJvm

open List

theorem foldl_set_kinds_length (ps : List (ValidationType × ℕ)) (l : List TypeKind) :
    (ps.foldl (fun ls p => ls.set p.2 p.1.kind.representation) l).length = l.length := by
  induction ps generalizing l with
  | nil => rfl
  | cons p ps ih => rw [foldl_cons, ih, length_set]

theorem intersectExceptionHandlers_stack {env : AnalysisEnv} {i : ℕ} {c : AnalysisCtx} :
    (c.intersectExceptionHandlers env i).stack = c.stack := by
  apply intersectExceptionHandlers_keeps (P := fun c' => c'.stack = c.stack) rfl
  intro e _ _ c' hc'
  exact hc'

/-- The ways to arrive at an instruction without a table. -/
theorem arrive_cases {env : AnalysisEnv} {i : ℕ} {insn : Instruction} {s s' : PassState}
    (hsmt : env.missingSmt = true) (hnext : s.iter.hasNext = false)
    (h : s.arrive env i insn = .ok s') :
    s'.iter = s.iter ∧
      (insn.originalPc = s.iter.pc ∧ s'.ctx = s.ctx.useStackMapFrame env s.iter ∨
      insn.originalPc ≠ s.iter.pc ∧ s.terminated = true ∧
        (∃ st ls, s.ctx.knownStacks i = some st ∧ s.ctx.knownLocals i = some ls ∧
          s'.ctx = AnalysisCtx.intersectExceptionHandlers env i
            { s.ctx with stack := st.reverse, locals := ls }) ∨
      insn.originalPc ≠ s.iter.pc ∧ s.terminated = false ∧
        s'.ctx = ((s.ctx.intersectStack i s.ctx.stack).intersectLocals i).intersectExceptionHandlers
          env i) := by
  unfold PassState.arrive at h
  split at h
  · rename_i hpc
    simp only [hnext, Bool.false_eq_true, if_false, Except.ok.injEq] at h
    subst h
    exact ⟨rfl, .inl ⟨hpc, rfl⟩⟩
  · rename_i hpc
    split at h
    · rename_i hterm
      split at h
      · rename_i st ls hst hls
        cases h
        exact ⟨rfl, .inr (.inl ⟨hpc, hterm, st, ls, hst, hls, rfl⟩)⟩
      · cases h
    · rename_i hterm
      cases h
      exact ⟨rfl, .inr (.inr ⟨hpc, by simpa using hterm, rfl⟩)⟩

/-- What a pass knows before instruction `i`. Without a table the iterator stays at the start. -/
structure PassInv (m : CodeMethod) (T : ℕ → Option KindFrame) (i : ℕ) (s : PassState) : Prop where
  known : KnownOk m.maxLocals T s.ctx
  start : s.iter.pc = 0 ∧ s.iter.hasNext = false ∧ s.iter.stack = []
  carried : 0 < i → s.terminated = false → ∃ f, T i = some f ∧ s.ctx.stack = f.stack

section Pass

variable {m : CodeMethod} {T : ℕ → Option KindFrame} {swizzle : List ℕ}

variable {i : ℕ}

variable {insn : Instruction}

theorem CodeMethod.originalPc_eq_zero (hi : m.code[i]? = some insn) :
    insn.originalPc = 0 ↔ i = 0 := by
  constructor
  · intro h
    by_contra hne
    obtain ⟨hlt, rfl⟩ := List.getElem?_eq_some_iff.mp hi
    have := pairwise_iff_getElem.mp m.pc_lt 0 i (by omega) hlt (by omega)
    omega
  · rintro rfl
    exact m.pc_zero insn hi

theorem InferredTyping.entry_stack (ht : InferredTyping m T) :
    ∃ f, T 0 = some f ∧ f.stack = [] := by
  obtain ⟨f, hf, hassign⟩ := ht.entry
  exact ⟨f, hf, (hassign.stack_eq (ht.noVoid 0 f hf)).symm⟩

theorem drop_eq_nil {i j : ℕ} (h : List.Forall₂ Instruction.SameOp (m.code.drop i) [])
    (hij : i ≤ j) : m.code[j]? = none := by
  have hlen := h.length_eq
  simp only [length_drop, length_nil] at hlen
  exact getElem?_eq_none (by omega)

theorem drop_sameOp {i : ℕ} {insn₂ : Instruction} {rest : List Instruction}
    (h : List.Forall₂ Instruction.SameOp (m.code.drop i) (insn₂ :: rest)) :
    ∃ insn, m.code[i]? = some insn ∧ insn.SameOp insn₂ ∧
      List.Forall₂ Instruction.SameOp (m.code.drop (i + 1)) rest := by
  obtain ⟨insn, tail, hop, htail, hdrop⟩ := forall₂_cons_right_iff.mp h
  refine ⟨insn, by simpa using congrArg List.head? hdrop, hop, ?_⟩
  rwa [← tail_drop, hdrop]

theorem Typing.handler_live (ht : Typing m T) {f : KindFrame} (hf : T i = some f) :
    ∀ e ∈ (m.analysisEnv swizzle).exceptionTable, e.covers i → ∃ g, T e.handlerInsn = some g := by
  intro e he hcov
  obtain ⟨d, hd, -⟩ := ht.handlers i f hf e he hcov
  exact ⟨d, hd⟩

variable {s s' : PassState}

variable {insn₂ : Instruction}

theorem arrive_live (ht : Typing m T)
    (hsmt : m.missingSmt = true) (hi : m.code[i]? = some insn) (hop : insn.SameOp insn₂)
    (hlive : s.ctx.Live T) (hstart : s.iter.pc = 0 ∧ s.iter.hasNext = false)
    (hcarried : 0 < i → s.terminated = false → ∃ f, T i = some f)
    (h : s.arrive (m.analysisEnv swizzle) i insn₂ = .ok s') :
    (∃ f, T i = some f) ∧ s'.ctx.Live T ∧ s'.iter = s.iter := by
  have hzero : insn₂.originalPc = s.iter.pc ↔ i = 0 := by
    rw [hop.originalPc_eq, hstart.1]
    exact CodeMethod.originalPc_eq_zero hi
  obtain ⟨hiter, hcases⟩ := arrive_cases (show (m.analysisEnv swizzle).missingSmt = true from hsmt)
    hstart.2 h
  rcases hcases with ⟨hpc, hctx⟩ | ⟨-, -, st, ls, -, hls, hctx⟩ | ⟨hpc, hterm, hctx⟩
  · obtain rfl := hzero.mp hpc
    obtain ⟨f, hf, -⟩ := ht.entry
    exact ⟨⟨f, hf⟩, by rw [hctx]; exact hlive, hiter⟩
  · obtain ⟨f, hf⟩ := hlive i ls hls
    have hknown : AnalysisCtx.Live T { s.ctx with stack := st.reverse, locals := ls } := hlive
    exact ⟨⟨f, hf⟩, by rw [hctx]; exact hknown.intersectExceptionHandlers (ht.handler_live hf),
      hiter⟩
  · have hpos : 0 < i := Nat.pos_of_ne_zero fun hi => hpc (hzero.mpr hi)
    obtain ⟨f, hf⟩ := hcarried hpos hterm
    have hmeet : (s.ctx.intersectStack i s.ctx.stack).Live T := hlive
    refine ⟨⟨f, hf⟩, ?_, hiter⟩
    rw [hctx]
    exact (hmeet.intersectLocals hf).intersectExceptionHandlers (ht.handler_live hf)

variable {b : Bool} {rest : List Instruction}

/-- A pass visits live code only: it stops the process at code that nothing before it reaches. -/
theorem passFrom_live (ht : Typing m T) (hsmt : m.missingSmt = true)
    (hrest : List.Forall₂ Instruction.SameOp (m.code.drop i) rest) (hlive : s.ctx.Live T)
    (hstart : s.iter.pc = 0 ∧ s.iter.hasNext = false)
    (hcarried : 0 < i → s.terminated = false → ∃ f, T i = some f)
    (h : passFrom (m.analysisEnv swizzle) b i rest s = .ok s') (j : ℕ) (hij : i ≤ j)
    (hj : j < m.code.length) : ∃ f, T j = some f := by
  induction rest generalizing i s with
  | nil =>
    have hnone := drop_eq_nil hrest hij
    rw [getElem?_eq_getElem hj] at hnone
    cases hnone
  | cons insn₂ rest ih =>
    obtain ⟨s₁, r, hs₁, hr, h⟩ := passFrom_ok h
    obtain ⟨insn, hget, hop, htail⟩ := drop_sameOp hrest
    obtain ⟨⟨f, hf⟩, hlive₁, hiter⟩ := arrive_live ht hsmt hget hop hlive hstart hcarried hs₁
    obtain ⟨g, -, hbranch, hnext⟩ := ht.step i insn f hget hf
    rcases Nat.lt_or_eq_of_le hij with hij | rfl
    · refine ih htail ?_ (by rw [hiter]; exact hstart) (fun _ hterm => ?_) h hij
      · rw [analyzeInstruction_targets hr, hop.branchTargets_eq]
        have hcarry : AnalysisCtx.Live T
            { s₁.ctx with stack := r.1.stack, locals := r.1.locals } := hlive₁
        refine hcarry.pushBranchTargets fun t htm => ?_
        obtain ⟨d, hd, -⟩ := hbranch t htm
        exact ⟨d, hd⟩
      · obtain ⟨d, hd, -⟩ := hnext (by rw [← hop.kind_eq]; exact hterm)
        exact ⟨d, hd⟩
    · exact ⟨f, hf⟩

/-- The state in which a pass analyses an instruction. -/
theorem arrive_typed
    (ht : InferredTyping m T) (hsmt : m.missingSmt = true) (hi : m.code[i]? = some insn)
    (hop : insn.SameOp insn₂) (hs : PassInv m T i s)
    (h : s.arrive (m.analysisEnv swizzle) i insn₂ = .ok s') :
    (∃ f, T i = some f ∧ s'.ctx.stack = f.stack) ∧ KnownOk m.maxLocals T s'.ctx ∧
      s'.iter = s.iter ∧ (s'.ctx.changed = false → SameKnown s.ctx s'.ctx) := by
  have hzero : insn₂.originalPc = s.iter.pc ↔ i = 0 := by
    rw [hop.originalPc_eq, hs.start.1]
    exact CodeMethod.originalPc_eq_zero hi
  obtain ⟨hiter, hcases⟩ := arrive_cases (show (m.analysisEnv swizzle).missingSmt = true from hsmt)
    hs.start.2.1 h
  rcases hcases with ⟨hpc, hctx⟩ | ⟨-, -, st, ls, hst, hls, hctx⟩ | ⟨hpc, hterm, hctx⟩
  · obtain rfl := hzero.mp hpc
    obtain ⟨f, hf, hempty⟩ := ht.entry_stack
    rw [hctx]
    refine ⟨⟨f, hf, ?_⟩, ⟨hs.known.stackOf, hs.known.live, hs.known.lengths, ?_⟩, hiter,
      fun _ => ⟨rfl, rfl, rfl⟩⟩
    · simp [AnalysisCtx.useStackMapFrame, hs.start.2.2, hempty]
    · simp [AnalysisCtx.useStackMapFrame, foldl_set_kinds_length, hs.known.locals]
  · obtain ⟨f, hf⟩ := hs.known.live i ls hls
    have hknown : KnownOk m.maxLocals T { s.ctx with stack := st.reverse, locals := ls } :=
      ⟨hs.known.stackOf, hs.known.live, hs.known.lengths, hs.known.lengths i ls hls⟩
    have hhandlers : ∀ e ∈ (m.analysisEnv swizzle).exceptionTable, e.covers i →
        ∃ g, T e.handlerInsn = some g := ht.handler_live hf
    rw [hctx]
    refine ⟨⟨f, hf, ?_⟩, hknown.intersectExceptionHandlers hhandlers, hiter, fun hch => ?_⟩
    · rw [← hs.known.stackOf i st f hst hf]
      exact intersectExceptionHandlers_stack
    · have hfrozen := hknown.intersectExceptionHandlers_frozen hhandlers hch
      exact { hfrozen with }
  · have hpos : 0 < i := Nat.pos_of_ne_zero fun hi => hpc (hzero.mpr hi)
    obtain ⟨f, hf, hstack⟩ := hs.carried hpos hterm
    have hmeet : KnownOk m.maxLocals T (s.ctx.intersectStack i s.ctx.stack) := by
      refine hs.known.intersectStack fun g hg => ?_
      cases hf.symm.trans hg
      exact hstack
    have hknown := hmeet.intersectLocals hf
    have hhandlers : ∀ e ∈ (m.analysisEnv swizzle).exceptionTable, e.covers i →
        ∃ g, T e.handlerInsn = some g := ht.handler_live hf
    rw [hctx]
    refine ⟨⟨f, hf, ?_⟩, hknown.intersectExceptionHandlers hhandlers, hiter, fun hch => ?_⟩
    · exact intersectExceptionHandlers_stack.trans hstack
    · have h₃ := hknown.intersectExceptionHandlers_frozen hhandlers hch
      have h₂ := hmeet.intersectLocals_frozen (h₃.changed.symm.trans hch)
      have h₁ := hs.known.intersectStack_frozen hf hstack
        (h₂.changed.symm.trans (h₃.changed.symm.trans hch))
      exact (h₁.trans h₂).trans h₃

variable {c : AnalysisCtx}

/-- The analysis of one instruction in a frame of the typing. -/
theorem analyzeInstruction_inferred {insn' : Instruction}
    {c' : AnalysisCtx} {f : KindFrame} (ht : InferredTyping m T) (hi : m.code[i]? = some insn)
    (hop : insn.SameOp insn₂) (hf : T i = some f) (hs : c.stack = f.stack)
    (hknown : KnownOk m.maxLocals T c)
    (h : analyzeInstruction (m.analysisEnv swizzle) b i insn₂ c = .ok (c', insn')) :
    KnownOk m.maxLocals T c' ∧ (c'.changed = false → SameKnown c c') ∧
      (insn.kind.terminates = false → ∃ d, T (i + 1) = some d ∧ c'.stack = d.stack) := by
  obtain ⟨g, hg, hbranch, hnext⟩ := ht.step i insn f hi hf
  have hmeet : ∀ t d, T t = some d → g.Assignable d → g.stack = d.stack :=
    fun t d hd hassign => hassign.stack_eq (ht.noVoid t d hd)
  obtain ⟨before, after, insn₁, -, -, hana, -⟩ := analyzeInstruction_analyzed h
  have hg₂ : typeStep (m.analysisEnv swizzle).maxLocals { insn₂ with tosBefore := before } f =
      some g := by
    obtain ⟨_, _, _, rfl⟩ := hop
    exact hg
  have hstack := (hana.typed hg₂ hs).1
  have hcarry : KnownOk m.maxLocals T { c with stack := c'.stack, locals := c'.locals } :=
    { hknown with locals := hana.locals_length.trans hknown.locals }
  have hto : ∀ t ∈ insn.branchTargets, ∃ d, T t = some d ∧ c'.stack = d.stack := by
    intro t htm
    obtain ⟨d, hd, hassign⟩ := hbranch t htm
    exact ⟨d, hd, hstack.trans (hmeet t d hd hassign)⟩
  have heq := analyzeInstruction_targets h
  rw [hop.branchTargets_eq] at heq
  refine ⟨?_, fun hch => ?_, fun hterm => ?_⟩
  · rw [heq]
    exact (hcarry.pushBranchTargets hto).1
  · rw [heq] at hch ⊢
    have hfrozen := (hcarry.pushBranchTargets hto).2 hch
    exact { hfrozen with }
  · obtain ⟨d, hd, hassign⟩ := hnext hterm
    exact ⟨d, hd, hstack.trans (hmeet _ d hd hassign)⟩

/-- A pass over code that has not been rewritten yet: it analyses every instruction in the stack of
the typing, and where it loses nothing it learns nothing. -/
theorem passFrom_inferred (ht : InferredTyping m T) (hsmt : m.missingSmt = true)
    (hrest : List.Forall₂ Instruction.SameOp (m.code.drop i) rest) (hs : PassInv m T i s)
    (hi : s.states.length = i ∧ s.code.length = i)
    (h : passFrom (m.analysisEnv swizzle) b i rest s = .ok s') :
    KnownOk m.maxLocals T s'.ctx ∧ (s'.ctx.changed = false → SameKnown s.ctx s'.ctx) ∧
    (∃ ss os, s'.states = s.states ++ ss ∧ s'.code = s.code ++ os) ∧
    ∀ j insn, i ≤ j → m.code[j]? = some insn → ∃ f c c' insn₂ insn', T j = some f ∧
      insn.SameOp insn₂ ∧ s'.states[j]? = some ⟨c.stack, c.locals⟩ ∧ s'.code[j]? = some insn' ∧
      c.stack = f.stack ∧
      analyzeInstruction (m.analysisEnv swizzle) b j insn₂ c = .ok (c', insn') := by
  induction rest generalizing i s with
  | nil =>
    cases h
    refine ⟨hs.known, fun _ => ⟨rfl, rfl, rfl⟩, ⟨[], [], by simp⟩, fun j insn hij hj => ?_⟩
    rw [drop_eq_nil hrest hij] at hj
    cases hj
  | cons insn₂ rest ih =>
    obtain ⟨s₁, r, hs₁, hr, h⟩ := passFrom_ok h
    obtain ⟨insn, hget, hop, htail⟩ := drop_sameOp hrest
    obtain ⟨⟨f, hf, hstack⟩, hknown, hiter, hfrozen⟩ := arrive_typed ht hsmt hget hop hs hs₁
    obtain ⟨hknown', hfrozen', hnext⟩ :=
      analyzeInstruction_inferred ht hget hop hf hstack hknown hr
    obtain ⟨hstates, houts⟩ := arrive_recorded hs₁
    have hinv : PassInv m T (i + 1) ⟨r.1, s₁.iter, insn₂.kind.terminates,
        s₁.states ++ [⟨s₁.ctx.stack, s₁.ctx.locals⟩], s₁.code ++ [r.2]⟩ := by
      refine ⟨hknown', by rw [hiter]; exact hs.start, fun _ hterm => hnext ?_⟩
      rw [← hop.kind_eq]
      exact hterm
    obtain ⟨hk, hfr, ⟨ss, os, hss, hos⟩, hall⟩ := ih htail hinv
      (by simp [hstates, houts, hi]) h
    dsimp only at hss hos
    rw [hstates] at hss
    rw [houts] at hos
    refine ⟨hk, fun hch => ?_, ⟨⟨s₁.ctx.stack, s₁.ctx.locals⟩ :: ss, r.2 :: os, by simp [hss],
      by simp [hos]⟩, fun j insn₀ hij hj => ?_⟩
    · have h₃ := hfr hch
      have h₂ := hfrozen' (h₃.changed.symm.trans hch)
      exact ((hfrozen (h₂.changed.symm.trans (h₃.changed.symm.trans hch))).trans h₂).trans h₃
    · rcases Nat.lt_or_eq_of_le hij with hij | rfl
      · exact hall j insn₀ hij hj
      · obtain rfl : insn = insn₀ := Option.some.inj (hget.symm.trans hj)
        refine ⟨f, s₁.ctx, r.1, insn₂, r.2, hf, hop, ?_, ?_, hstack, hr⟩
        · rw [hss, append_assoc, getElem?_append_right (by omega), hi.1]
          simp
        · rw [hos, append_assoc, getElem?_append_right (by omega), hi.2]
          simp

theorem initIterator_missing {it : FrameIterator} (hsmt : m.missingSmt = true)
    (h : m.initIterator = .ok it) : it.pc = 0 ∧ it.hasNext = false ∧ it.stack = [] := by
  simp only [CodeMethod.initIterator, m.missing_eq hsmt, Option.getD_none, head?_nil,
    reduceCtorEq, if_false, Option.isSome_none, Except.ok.injEq] at h
  subst h
  exact ⟨rfl, rfl, rfl⟩

theorem sameOps_trans {as bs cs : List Instruction}
    (h : List.Forall₂ Instruction.SameOp as bs) (k : List.Forall₂ Instruction.SameOp bs cs) :
    List.Forall₂ Instruction.SameOp as cs := by
  induction h generalizing cs with
  | nil =>
    cases k
    exact .nil
  | cons hab _ ih =>
    cases k with
    | cons hbc k => exact .cons (hab.trans hbc) (ih k)

variable {code : List Instruction}

theorem head_originalPc
    (h : List.Forall₂ Instruction.SameOp m.code code) (hmem : insn₂ ∈ code.head?) :
    insn₂.originalPc = 0 := by
  cases hm : m.code with
  | nil =>
    rw [hm] at h
    cases h
    cases hmem
  | cons insn rest =>
    rw [hm] at h
    cases h with
    | cons hop _ =>
      cases hmem
      rw [hop.originalPc_eq]
      exact m.pc_zero insn (by simp [hm])

variable {fuel : ℕ}

/-- The repeated passes end with one that analyses the original code in the stacks of the typing
and rewrites it. -/
theorem analyzePasses_inferred
    {s : PassState} (ht : InferredTyping m T) (hsmt : m.missingSmt = true)
    (hknown : KnownOk m.maxLocals T c) (hcode : List.Forall₂ Instruction.SameOp m.code code)
    (h : analyzePasses m (m.analysisEnv swizzle) fuel false c code = some (.ok s)) :
    ∀ j insn, m.code[j]? = some insn → ∃ f c c' insn₂ insn', T j = some f ∧
      insn.SameOp insn₂ ∧ s.states[j]? = some ⟨c.stack, c.locals⟩ ∧ s.code[j]? = some insn' ∧
      c.stack = f.stack ∧
      analyzeInstruction (m.analysisEnv swizzle) true j insn₂ c = .ok (c', insn') := by
  induction fuel generalizing c code with
  | zero => cases h
  | succ fuel ih =>
    simp only [analyzePasses] at h
    split at h
    · cases h
    rename_i it hit
    have hstart := initIterator_missing hsmt hit
    split at h
    · cases h
    rename_i s₁ hs₁
    have hinv : ∀ c₁, KnownOk m.maxLocals T c₁ → PassInv m T 0 ⟨c₁, it, true, [], []⟩ :=
      fun c₁ hc₁ => ⟨hc₁, hstart, fun hpos => absurd hpos (by omega)⟩
    obtain ⟨hknown₁, hfrozen, -, -⟩ := passFrom_inferred ht hsmt (by simpa using hcode)
      (hinv c hknown) ⟨rfl, rfl⟩ hs₁
    obtain ⟨os, hos, hsame⟩ := passFrom_sameOp hs₁
    obtain rfl : s₁.code = os := by simpa using hos
    have hcode₁ : List.Forall₂ Instruction.SameOp m.code s₁.code :=
      sameOps_trans hcode hsame
    split at h
    · have hreset : KnownOk m.maxLocals T { s₁.ctx with changed := false } :=
        { hknown₁ with }
      exact ih hreset hcode₁ h
    · rename_i hch
      have hch : s₁.ctx.changed = false := by simpa using hch
      simp only [Bool.false_eq_true, if_false] at h
      cases fuel with
      | zero => cases h
      | succ fuel =>
        simp only [analyzePasses, hit] at h
        split at h
        · cases h
        rename_i s₂ hs₂
        have hk : SameKnown s₁.ctx s₂.ctx := by
          refine passFrom_congr hsame ?_ ?_ ?_ ?_ (.inl ?_) hs₁ hs₂
          · rfl
          · rfl
          · exact hfrozen hch
          · exact hknown₁.locals.trans hknown.locals.symm
          · intro insn₂ hmem
            rw [show it.pc = 0 from hstart.1]
            exact head_originalPc hcode hmem
        rw [if_neg (by simp [hk.changed, hch]), if_pos trivial] at h
        cases h
        obtain ⟨-, -, -, hall⟩ := passFrom_inferred ht hsmt (by simpa using hcode₁)
          (hinv _ hknown₁) ⟨rfl, rfl⟩ hs₂
        exact fun j insn hj => hall j insn (Nat.zero_le j) hj

theorem fillExceptionHandlers_known (ht : InferredTyping m T)
    (hlive : ∀ j, j < m.code.length → ∃ f, T j = some f) (hknown : KnownOk m.maxLocals T c) :
    KnownOk m.maxLocals T (c.fillExceptionHandlers (m.analysisEnv swizzle)) := by
  have hstack : ∀ e ∈ m.exceptionTable, ∀ f, T e.handlerInsn = some f →
      [.reference] = f.stack := by
    intro e he f hf
    obtain ⟨i, hi, hcov⟩ := ht.ranges e he
    obtain ⟨g, hg⟩ := hlive i hi
    obtain ⟨d, hd, hassign⟩ := ht.handlers i g hg e he hcov
    cases hf.symm.trans hd
    exact hassign.stack_eq (ht.noVoid _ f hf)
  unfold AnalysisCtx.fillExceptionHandlers
  change KnownOk m.maxLocals T (m.exceptionTable.foldl _ c)
  generalize m.exceptionTable = es at hstack
  induction es generalizing c with
  | nil => exact hknown
  | cons e es ih =>
    exact ih (hknown.intersectStack (hstack e (by simp))) fun e' he' => hstack e' (by simp [he'])

theorem fillExceptionHandlers_knownLocals {env : AnalysisEnv} :
    (c.fillExceptionHandlers env).knownLocals = c.knownLocals := by
  unfold AnalysisCtx.fillExceptionHandlers
  induction env.exceptionTable generalizing c with
  | nil => rfl
  | cons e es ih => exact ih

/-- An accepted method without a table is analysed in the stacks of its typing. -/
theorem analysedAt_of_inferred {A : CodeAnalysis} (ht : InferredTyping m T)
    (hsmt : m.missingSmt = true) (h : analyzeMethodCode fuel m = some (.ok A)) :
    ∃ swizzle locals, m.localsOnMethodEntry = .ok (swizzle, locals) ∧
      ∀ i insn f, m.code[i]? = some insn → T i = some f →
        ∃ insn' r, AnalysedAt m swizzle A i insn f insn' r := by
  obtain ⟨swizzle, locals, c, s, hentry, hc, hpass, hcode, hstates⟩ := analyzeMethodCode_eq_ok h
  obtain ⟨-, hlen, -⟩ := localsOnMethodEntry_swizzles hentry
  rw [hsmt, if_pos rfl, Bool.not_true] at hpass
  have hself : List.Forall₂ Instruction.SameOp m.code m.code :=
    forall₂_same.mpr fun insn _ => .self insn
  have hlive : ∀ j, j < m.code.length → ∃ f, T j = some f := by
    intro j hj
    cases fuel with
    | zero => cases hpass
    | succ fuel =>
      simp only [analyzePasses] at hpass
      split at hpass
      · cases hpass
      rename_i it hit
      obtain ⟨hpc, hnext, -⟩ := initIterator_missing hsmt hit
      split at hpass
      · cases hpass
      rename_i s₁ hs₁
      refine passFrom_live ht.toTyping hsmt (by simpa using hself) ?_ ⟨hpc, hnext⟩
        (fun hpos => absurd hpos (by omega)) hs₁ j (Nat.zero_le j) hj
      intro t ls hls
      dsimp only at hls
      rw [fillExceptionHandlers_knownLocals, hc] at hls
      cases hls
  have hinit : KnownOk m.maxLocals T c := by
    subst hc
    exact ⟨fun t st f hst => (by cases hst), fun t ls hls => (by cases hls),
      fun t ls hls => (by cases hls), hlen⟩
  have hall := analyzePasses_inferred ht hsmt (fillExceptionHandlers_known ht hlive hinit) hself
    hpass
  refine ⟨swizzle, locals, hentry, fun i insn f hi hf => ?_⟩
  obtain ⟨g, c₁, c₁', insn₂, insn', hg, hop, hstate, hout, hstack, hana⟩ := hall i insn hi
  cases hf.symm.trans hg
  have hdone := analysedAt_of_analyzed (A := A) (hcode ▸ hout) (hstates ▸ hstate) hstack hana
  exact ⟨insn', _, hdone.output, hdone.state, hdone.stack, hdone.rewritten.of_sameOp hop,
    hdone.before⟩

theorem Verified.analysedAt {A : CodeAnalysis} (hv : Verified m T)
    (h : analyzeMethodCode fuel m = some (.ok A)) :
    ∃ swizzle locals, m.localsOnMethodEntry = .ok (swizzle, locals) ∧
      ∀ i insn f, m.code[i]? = some insn → T i = some f →
        ∃ insn' r, AnalysedAt m swizzle A i insn f insn' r := by
  cases hv with
  | table hsmt henc hall hk hstart => exact analysedAt_of_table hsmt henc hall hk hstart h
  | inferred hsmt ht => exact analysedAt_of_inferred ht hsmt h

end Pass

end TraceJvm
