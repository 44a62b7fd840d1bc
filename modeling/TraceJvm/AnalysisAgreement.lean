import TraceJvm.AnalysisTrace

/-! The states that the analysis of a method with a stack map table records, against the frames of
the type checker. -/
namespace TraceJvm

open Option List

/-- The table does not start with a frame at offset 0, unless it is the `same_frame` of one byte
that the iterator skips. -/
def startsProperly : List StackMapFrame → Bool
  | [] => true
  | .sameFrame _ :: _ => true
  | f :: _ => 0 < f.offsetDelta

theorem expandFrames_pc_lt {first : Bool} {prev : DeclaredFrame} {fs : List StackMapFrame}
    {ds : List DeclaredFrame} (h : expandFrames first prev fs = some ds) :
    ds.Pairwise (fun d e => d.pc < e.pc) ∧ (first = false → ∀ d ∈ ds, prev.pc < d.pc) ∧
      ∀ f ∈ fs.head?, ∀ d ∈ ds, prev.pc + f.offsetDelta ≤ d.pc := by
  induction fs generalizing first prev ds with
  | nil =>
    obtain rfl : [] = ds := by simpa [expandFrames] using h
    simp
  | cons f fs ih =>
    simp only [expandFrames, bind, bind_eq_some_iff] at h
    obtain ⟨⟨ls, st⟩, -, ds', hds', heq⟩ := h
    cases heq
    obtain ⟨hs, hlt, -⟩ := ih hds'
    have hlt := hlt rfl
    refine ⟨pairwise_cons.mpr ⟨hlt, hs⟩, ?_, ?_⟩
    · rintro rfl d hd
      rcases mem_cons.mp hd with rfl | hd
      · simp only [Bool.false_eq_true, if_false]
        omega
      · have := hlt d hd
        simp only [Bool.false_eq_true, if_false] at this
        omega
    · intro g hg d hd
      obtain rfl : f = g := by simpa using hg
      have hfirst : prev.pc + f.offsetDelta ≤
          if first then prev.pc + f.offsetDelta else prev.pc + f.offsetDelta + 1 := by
        split <;> omega
      rcases mem_cons.mp hd with rfl | hd
      · exact hfirst
      · have := hlt d hd
        dsimp only at this
        omega

theorem initLocals_eq (m : CodeMethod) : m.initLocals = localSlots m.entryLocals := by
  unfold CodeMethod.initLocals CodeMethod.entryLocals
  rw [localSlots_append]
  congr 1
  · cases m.isStatic <;> cases m.isCtor <;> rfl
  · simp [localSlots, flatMap_map]

variable {all : List DeclaredFrame} {m : CodeMethod} {frames : List StackMapFrame}

theorem declaredFrames_sorted (h : m.declaredFrames frames = some all) :
    all.Pairwise fun d e => d.pc < e.pc := by
  obtain ⟨ds, hds, rfl⟩ := map_eq_some_iff.mp h
  obtain ⟨hs, -, -⟩ := expandFrames_pc_lt hds
  split
  · exact hs
  · rename_i hne
    refine pairwise_cons.mpr ⟨fun d hd => ?_, hs⟩
    cases ds with
    | nil => cases hd
    | cons e ds =>
      have he : e.pc ≠ 0 := by simpa using hne
      rcases mem_cons.mp hd with rfl | hd
      · exact Nat.pos_of_ne_zero he
      · have := (pairwise_cons.mp hs).1 d hd
        exact Nat.lt_of_le_of_lt (Nat.zero_le _) this

theorem encode_head_eq_zero {f : StackMapFrame} (h : f.encode.head? = some 0) :
    f = .sameFrame 0 := by
  cases f with
  | sameFrame d =>
    have hd := d.isLt
    have h0 : UInt8.ofNat d = 0 := by simpa [StackMapFrame.encode] using h
    have := congrArg UInt8.toNat h0
    simp only [UInt8.toNat_ofNat'] at this
    congr 1
    ext
    simp at this ⊢
    omega
  | sameLocals d v =>
    have hd := d.isLt
    have h0 : UInt8.ofNat (d + 64) = 0 := by simpa [StackMapFrame.encode] using h
    have := congrArg UInt8.toNat h0
    simp at this
    omega
  | chop c d =>
    have hc := c.isLt
    have h0 : UInt8.ofNat (250 - c) = 0 := by simpa [StackMapFrame.encode] using h
    have := congrArg UInt8.toNat h0
    simp at this
    omega
  | append vs d =>
    have hvs := vs.2
    have h0 : UInt8.ofNat (vs.1.length + 251) = 0 := by simpa [StackMapFrame.encode] using h
    have := congrArg UInt8.toNat h0
    simp at this
    omega
  | sameLocalsExtended d v | sameFrameExtended d
  | fullFrame d ls st => simp [StackMapFrame.encode] at h

/-- The iterator at the start of the pass. An attribute without frames leaves it waiting for one
that does not come. -/
theorem initIterator_inv
    {it : FrameIterator} (henc : m.encodes frames) (hall : m.declaredFrames frames = some all)
    (hstart : startsProperly frames) (h : m.initIterator = .ok it) :
    IterInv m.code all it 0 ∨ it.pc = 0 ∧ it.hasNext ∧ it.table = [] := by
  obtain ⟨ds, hds, rfl⟩ := map_eq_some_iff.mp hall
  have hwait : ∀ {it' : FrameIterator} {first : Bool} {d : DeclaredFrame}
      {fs : List StackMapFrame} {ds' all' : List DeclaredFrame}, all' = d :: ds' →
      it'.At first d fs → expandFrames first d fs = some ds' → IterInv m.code all' it' 0 := by
    rintro it' first d fs ds' all' rfl hat hds'
    exact ⟨0, first, d, fs, ds', by simp, hat, hds', .inl (by simp)⟩
  unfold CodeMethod.initIterator at h
  rcases henc with henc | ⟨henc, rfl⟩
  · cases frames with
    | nil =>
      simp only [henc, getD_some, flatMap_nil, head?_nil, reduceCtorEq, if_false,
        Except.ok.injEq] at h
      subst h
      exact .inr ⟨rfl, rfl, rfl⟩
    | cons f fs =>
      have hat : FrameIterator.At
          { pc := 0, stack := [], locals := m.initLocals, table := encodeFrames (f :: fs),
            hasNext := true, isFirst := true } true m.entryFrame (f :: fs) :=
        ⟨rfl, rfl, initLocals_eq m, rfl, rfl, rfl⟩
      have hhead : (encodeFrames (f :: fs)).head? = f.encode.head? := by
        cases hf : f.encode with
        | nil => exact absurd hf f.encode_ne_nil
        | cons b bs => simp [encodeFrames, hf]
      simp only [henc, getD_some, isSome_some] at h
      rw [show (f :: fs).flatMap StackMapFrame.encode = encodeFrames (f :: fs) from rfl, hhead] at h
      refine .inl ?_
      split at h
      · rename_i hzero
        obtain rfl := encode_head_eq_zero hzero
        obtain ⟨d', ds', rfl, hat', hds'⟩ := hat.next hds h
        have hpc : d'.pc = 0 := by
          simp only [expandFrames, bind, bind_eq_some_iff] at hds
          obtain ⟨⟨ls, st⟩, -, ds'', -, heq⟩ := hds
          cases heq
          rfl
        exact hwait (by simp [hpc]) hat' hds'
      · rename_i hzero
        cases h
        have hpos : 0 < f.offsetDelta := by
          cases f with
          | sameFrame d =>
            by_contra hd
            have hd : d = 0 := by
              ext
              simpa [StackMapFrame.offsetDelta] using hd
            subst hd
            exact hzero rfl
          | _ => simpa [startsProperly] using hstart
        have hne : ¬ (ds.head?.any fun d => d.pc = 0) := by
          intro hany
          cases ds with
          | nil => simp at hany
          | cons d ds =>
            have := (expandFrames_pc_lt hds).2.2 f (by simp) d (by simp)
            have hd : d.pc = 0 := by simpa using hany
            omega
        exact hwait (by rw [if_neg hne]) hat hds
  · simp only [henc, getD_none, head?_nil, reduceCtorEq, if_false, Except.ok.injEq,
      isSome_none] at h
    subst h
    obtain rfl : [] = ds := by simpa [expandFrames] using hds
    have hat : FrameIterator.At
        { pc := 0, stack := [], locals := m.initLocals, table := [], hasNext := false,
          isFirst := true } true m.entryFrame [] :=
      ⟨rfl, rfl, initLocals_eq m, rfl, rfl, rfl⟩
    exact .inl (hwait rfl hat rfl)

theorem foldl_pushBranchTarget_changed {curr : ℕ} {c : AnalysisCtx} (ts : List ℕ) :
    (ts.foldl (AnalysisCtx.pushBranchTarget false curr) c).changed = c.changed := by
  induction ts generalizing c with
  | nil => rfl
  | cons t ts ih => exact ih

theorem analyzeEffect_changed {env : AnalysisEnv} {b : Bool} {curr : ℕ}
    {insn insn' : Instruction} {c c' : AnalysisCtx} (hsmt : env.missingSmt = false)
    (h : analyzeEffect env b curr insn c = .ok (c', insn')) : c'.changed = c.changed := by
  simp only [analyzeEffect, hsmt, bind, Except.bind, pure, Except.pure] at h
  repeat' split at h
  all_goals first
    | (cases h; done)
    | (cases h; rfl)
    | (cases h; exact foldl_pushBranchTarget_changed _)

theorem passFrom_changed {env : AnalysisEnv} {b : Bool} {i : ℕ} {rest : List Instruction}
    {s s' : PassState} (hsmt : env.missingSmt = false) (h : passFrom env b i rest s = .ok s') :
    s'.ctx.changed = s.ctx.changed := by
  induction rest generalizing i s with
  | nil =>
    simp only [passFrom, Except.ok.injEq] at h
    rw [h]
  | cons insn rest ih =>
    obtain ⟨s₁, r, hs₁, hr, h⟩ := passFrom_ok h
    have harrive : s₁.ctx.changed = s.ctx.changed := by
      simp only [PassState.arrive, hsmt, Bool.false_eq_true, if_false] at hs₁
      split at hs₁
      · split at hs₁
        · split at hs₁
          · cases hs₁
          · cases hs₁
            rfl
        · cases hs₁
          rfl
      · cases hs₁
        rfl
    have hinsn : r.1.changed = s₁.ctx.changed := by
      simp only [analyzeInstruction, bind, Except.bind, pure, Except.pure] at hr
      split at hr
      · cases hr
      split at hr
      · cases hr
      rename_i hr'
      split at hr
      · cases hr
      cases hr
      exact analyzeEffect_changed hsmt hr'
    exact (ih h).trans (hinsn.trans harrive)

def CodeMethod.analysisEnv (m : CodeMethod) (swizzle : List ℕ) : AnalysisEnv :=
  ⟨m.maxStack, m.maxLocals, m.exceptionTable, m.missingSmt, swizzle⟩

variable {A : CodeAnalysis}

theorem analyzeMethodCode_eq_ok {fuel : ℕ} (h : analyzeMethodCode fuel m = some (.ok A)) :
    ∃ swizzle locals c s, m.localsOnMethodEntry = .ok (swizzle, locals) ∧
      c = (⟨[], locals, [], fun _ => none, fun _ => none, false⟩ : AnalysisCtx) ∧
      analyzePasses m (m.analysisEnv swizzle) fuel (!m.missingSmt)
        (if m.missingSmt then c.fillExceptionHandlers (m.analysisEnv swizzle) else c) m.code =
        some (.ok s) ∧
      A.code = s.code ∧ A.states = s.states := by
  unfold analyzeMethodCode at h
  split at h
  · cases h
  rename_i swizzle locals hentry
  split at h
  · cases h
  obtain ⟨r, hr, heq⟩ := map_eq_some_iff.mp h
  cases r with
  | error e => cases heq
  | ok s =>
    cases heq
    exact ⟨swizzle, locals, _, s, hentry, rfl, hr, rfl, rfl⟩

/-- The single pass over an accepted method with a table. -/
theorem analyzeMethodCode_pass {fuel : ℕ}
    (hsmt : m.missingSmt = false) (h : analyzeMethodCode fuel m = some (.ok A)) :
    ∃ swizzle locals it s, m.localsOnMethodEntry = .ok (swizzle, locals) ∧
      m.initIterator = .ok it ∧
      passFrom (m.analysisEnv swizzle) true 0 m.code
        ⟨⟨[], locals, [], fun _ => none, fun _ => none, false⟩, it, true, [], []⟩ = .ok s ∧
      A.code = s.code ∧ A.states = s.states := by
  obtain ⟨swizzle, locals, c, s, hentry, rfl, hpass, hcode, hstates⟩ := analyzeMethodCode_eq_ok h
  simp only [hsmt, Bool.not_false, Bool.false_eq_true, if_false] at hpass
  cases fuel with
  | zero => cases hpass
  | succ fuel =>
    simp only [analyzePasses] at hpass
    split at hpass
    · cases hpass
    rename_i it hit
    split at hpass
    · cases hpass
    rename_i s₁ hs₁
    have hchanged := passFrom_changed (show (m.analysisEnv swizzle).missingSmt = false from hsmt) hs₁
    rw [if_neg (by simp [hchanged]), if_pos trivial] at hpass
    cases hpass
    exact ⟨swizzle, locals, it, s, hentry, hit, hs₁, hcode, hstates⟩

/-- Its record, instruction by instruction. -/
theorem analyzeMethodCode_trace {fuel : ℕ} (hsmt : m.missingSmt = false)
    (henc : m.encodes frames) (hall : m.declaredFrames frames = some all)
    (hstart : startsProperly frames)
    (hbound : ∀ d ∈ all, ∃ insn ∈ m.code, insn.originalPc = d.pc)
    (h : analyzeMethodCode fuel m = some (.ok A)) :
    ∃ swizzle locals, m.localsOnMethodEntry = .ok (swizzle, locals) ∧
      A.states.length = m.code.length ∧
      ∀ i insn, m.code[i]? = some insn → ∃ c c' insn',
        TraceAt (m.analysisEnv swizzle) m.code all A.states A.code i insn c c' insn' := by
  obtain ⟨swizzle, locals, it, s, hentry, hit, hs₁, hcode, hstates⟩ := analyzeMethodCode_pass hsmt h
  obtain ⟨hz, hlen, -⟩ := localsOnMethodEntry_swizzles hentry
  refine ⟨swizzle, locals, hentry, ?_⟩
  rw [hcode, hstates]
  rcases initIterator_inv henc hall hstart hit with hinv | ⟨hpc, hnext, htable⟩
  · obtain ⟨⟨ss, os, hss, -, hsslen⟩, -, htrace⟩ := passFrom_trace hz hsmt m.pc_lt
      ⟨declaredFrames_sorted hall, hbound⟩ (s := ⟨_, it, true, [], []⟩) rfl hlen hinv ⟨rfl, rfl⟩ hs₁
    exact ⟨by simpa [hss] using hsslen, fun i insn hi => htrace i insn (Nat.zero_le i) hi⟩
  · cases hcode' : m.code with
    | nil =>
      rw [hcode'] at hs₁
      cases hs₁
      exact ⟨rfl, by simp⟩
    | cons insn rest =>
      have hzero := m.pc_zero insn (by simp [hcode'])
      rw [hcode'] at hs₁
      simp only [passFrom, PassState.arrive, hzero, hpc, if_true, hnext, FrameIterator.next,
        htable, readU8, bind, Except.bind] at hs₁
      cases hs₁

/-- The analysis of an instruction that the type checker reaches: both see the same stack, and the
analyser knows the locals, before the instruction and after it. -/
structure AgreesAt (env : AnalysisEnv) (m : CodeMethod) (all : List DeclaredFrame)
    (A : CodeAnalysis) (i : ℕ) (insn : Instruction) (f : KindFrame) (c c' : AnalysisCtx)
    (insn' : Instruction) : Prop extends
    TraceAt env m.code all A.states A.code i insn c c' insn' where
  stack : c.stack = f.stack
  locals : AgreesLocals env.swizzle c.locals f.locals
  after : ∀ g, typeStep m.maxLocals insn f = some g →
    c'.stack = g.stack ∧ AgreesLocals env.swizzle c'.locals g.locals

theorem FrameExact.agrees {swizzle : List ℕ} {c : AnalysisCtx} {f : KindFrame}
    (h : FrameExact swizzle c f) : AgreesLocals swizzle c.locals f.locals :=
  fun s j hs _ => h.locals s j hs

theorem TraceAt.after {swizzle : List ℕ}
    {states : List StackSummary} {output : List Instruction} {i : ℕ} {insn insn' : Instruction}
    {c c' : AnalysisCtx} {f g : KindFrame} (hz : Swizzles m.maxLocals swizzle)
    (h : TraceAt (m.analysisEnv swizzle) m.code all states output i insn c c' insn')
    (hs : c.stack = f.stack) (hl : AgreesLocals swizzle c.locals f.locals)
    (ht : typeStep m.maxLocals insn f = some g) :
    c'.stack = g.stack ∧ AgreesLocals swizzle c'.locals g.locals := by
  obtain ⟨before, after, insn₁, -, -, hana, -⟩ := analyzeInstruction_analyzed h.analyzed
  obtain ⟨hstack, hlocals⟩ := hana.typed (f := f) ht hs
  exact ⟨hstack, hlocals hz h.length hl⟩

/-- Analyser and type checker agree at every instruction of an accepted method. -/
theorem trace_agrees {swizzle : List ℕ} (hz : Swizzles m.maxLocals swizzle)
    (htrace : ∀ i insn, m.code[i]? = some insn → ∃ c c' insn',
      TraceAt (m.analysisEnv swizzle) m.code all A.states A.code i insn c c' insn')
    (i : ℕ) (insn : Instruction) (f : KindFrame) (hi : m.code[i]? = some insn)
    (hf : kindsAt m.maxLocals m.code all i = some f) :
    ∃ c c' insn', AgreesAt (m.analysisEnv swizzle) m all A i insn f c c' insn' := by
  induction i generalizing insn f with
  | zero =>
    obtain ⟨c, c', insn', ht⟩ := htrace 0 insn hi
    have hex := ht.declared f hf
    exact ⟨c, c', insn', ht, hex.stack, hex.agrees,
      fun g hg => ht.after hz hex.stack hex.agrees hg⟩
  | succ i ih =>
    obtain ⟨c, c', insn', ht⟩ := htrace (i + 1) insn hi
    simp only [kindsAt] at hf
    cases hd : declaredAt m.code all (i + 1) with
    | some d =>
      rw [hd] at hf
      obtain rfl : d = f := by simpa using hf
      have hex := ht.declared d hd
      exact ⟨c, c', insn', ht, hex.stack, hex.agrees,
        fun g hg => ht.after hz hex.stack hex.agrees hg⟩
    | none =>
      rw [hd] at hf
      obtain ⟨prev, hprev, hf⟩ := bind_eq_some_iff.mp hf
      split at hf
      · cases hf
      obtain ⟨e, he, hstep⟩ := bind_eq_some_iff.mp hf
      obtain ⟨p, p', prev', hp⟩ := ih prev e hprev he
      have hcarry := hp.carried hd _ ht.state
      obtain ⟨hstack, hlocals⟩ := hp.after f hstep
      injection hcarry with hst hls
      rw [← hst] at hstack
      rw [← hls] at hlocals
      exact ⟨c, c', insn', ht, hstack, hlocals, fun g hg => ht.after hz hstack hlocals hg⟩

end TraceJvm
