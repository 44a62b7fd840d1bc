import TraceJvm.AnalysisInference
import TraceJvm.AnalysisRuns
import TraceJvm.StackDepth
import TraceJvm.StackMapReader

/-! The depths that the analysis of an accepted method records, against the declared `max_stack`.
`PUSH_ENTRY` tests the capacity of its buffer, which is one entry larger, and the stack of a handler
is not tested. -/
namespace TraceJvm
open Outcome List

def Instruction.namesLocal (insn : Instruction) : Prop :=
  (loadKind insn.kind).isSome ∨ (storeKind insn.kind).isSome ∨ insn.kind = .iinc ∨
    insn.kind = .ret

def Instruction.flow (insn : Instruction) : ℕ × Bool × List ℕ × Option ℕ :=
  (insn.originalPc, insn.kind.terminates, insn.branchTargets,
    if insn.kind = .ret then some insn.index else none)

section Flow

variable {insn insn₂ : Instruction}

theorem flow_eq_iff : insn.flow = insn₂.flow ↔ insn.originalPc = insn₂.originalPc ∧
    insn.kind.terminates = insn₂.kind.terminates ∧ insn.branchTargets = insn₂.branchTargets ∧
    (if insn.kind = .ret then some insn.index else none) =
      if insn₂.kind = .ret then some insn₂.index else none := by
  simp [Instruction.flow]

theorem flow_plain (ht : insn.kind.terminates = false)
    (hd : insn.kind.hasBranchDelta = false) (hs : insn.kind ≠ .tableswitch)
    (hl : insn.kind ≠ .lookupswitch) (hj : insn.kind ≠ .jsr) (hr : insn.kind ≠ .ret) :
    insn.flow = (insn.originalPc, false, [], none) := by
  simp [Instruction.flow, branchTargets_eq hj, ht, hd, hs, hl, hr]

theorem flow_access (h : (loadKind insn.kind).isSome ∨ (storeKind insn.kind).isSome ∨
    insn.kind = .iinc) : insn.flow = (insn.originalPc, false, [], none) := by
  obtain ⟨h1, h2, h3, h4, h5⟩ := accesses_plain h
  apply flow_plain h1 h2 h3 h4 h5
  intro hr
  rw [hr] at h
  simp [loadKind, storeKind] at h

theorem flow_shuffle (h : insn.kind.isShuffle = true) :
    insn.flow = (insn.originalPc, false, [], none) := by
  obtain ⟨-, -, -, h1, h2, h3, h4⟩ := loadKind_of_isShuffle h
  apply flow_plain h1 h2 h3 h4
  all_goals
    intro hk
    rw [hk] at h
    cases h

theorem Analyzed.flow_eq {env : AnalysisEnv} {b : Bool} {curr : ℕ} {insn' : Instruction}
    {c : AnalysisCtx} {st ls : List TypeKind} (h : Analyzed env b curr insn c st ls insn') :
    insn'.flow = insn.flow := by
  cases h with
  | load hk =>
    have hload : (loadKind insn.kind).isSome := by simp [hk]
    refine Eq.trans (flow_access ?_) (flow_access (.inl hload)).symm
    exact .inl hload
  | store hl hk =>
    have hstore : (storeKind insn.kind).isSome := by simp [hk]
    refine Eq.trans (flow_access ?_) (flow_access (.inr (.inl hstore))).symm
    exact .inr (.inl hstore)
  | iinc hk =>
    refine Eq.trans (flow_access ?_) (flow_access (.inr (.inr hk))).symm
    exact .inr (.inr hk)
  | put hk hst => rfl
  | shuffle hk hst =>
    rename_i kind
    refine Eq.trans (flow_shuffle ?_) (flow_shuffle hk).symm
    show (if b then kind else insn.kind).isShuffle = true
    split
    · exact (analyzeShuffle_length hst).2
    · exact hk
  | effect => rfl

/-- A local that the rewriting leaves in an instruction exists. -/
theorem Analyzed.index_lt {env : AnalysisEnv} {curr : ℕ} {insn' : Instruction} {c : AnalysisCtx}
    {st ls : List TypeKind} (hz : Swizzles env.maxLocals env.swizzle)
    (h : Analyzed env true curr insn c st ls insn') (hnames : insn'.namesLocal) :
    insn'.index < env.maxLocals ∨ insn'.kind = .ret := by
  cases h with
  | load hk hj hindex | store hl hk hst hj hindex | iinc hk hj hindex =>
    subst hindex
    exact .inl (hz.get_lt hj).2
  | put hk hst =>
    rcases hk with hk | hk <;> simp [Instruction.namesLocal, hk, loadKind, storeKind] at hnames
  | shuffle hk hst =>
    obtain ⟨hl, hs, hi, -⟩ := loadKind_of_isShuffle (analyzeShuffle_length hst).2
    rcases hnames with h | h | h | h
    · exact absurd h (by simp [hl])
    · exact absurd h (by simp [hs])
    · exact absurd h hi
    · exact .inr h
  | effect hl hs hi =>
    rcases hnames with h | h | h | h
    · exact absurd h (by simp [hl])
    · exact absurd h (by simp [hs])
    · exact absurd h hi
    · exact .inr h

end Flow

section Known

variable {env : AnalysisEnv} {c : AnalysisCtx}

theorem intersectStack_known {t u : ℕ} {st ks : List TypeKind}
    (h : (c.intersectStack t st).knownStacks u = some ks) :
    ks.length ≤ st.length ∨ u ≠ t ∧ c.knownStacks u = some ks := by
  simp only [AnalysisCtx.intersectStack] at h
  by_cases hut : u = t
  · subst hut
    rw [Function.update_self] at h
    cases h
    left
    cases c.knownStacks u with
    | none => simp [intersectState]
    | some d => simpa [intersectState] using Nat.min_le_right _ _
  · rw [Function.update_of_ne hut] at h
    exact .inr ⟨hut, h⟩

theorem pushBranchTargets_known {curr u : ℕ} {ts : List ℕ} {ks : List TypeKind}
    (h : (ts.foldl (AnalysisCtx.pushBranchTarget true curr) c).knownStacks u = some ks) :
    ks.length ≤ c.stack.length ∨ u ∉ ts ∧ c.knownStacks u = some ks := by
  induction ts generalizing c with
  | nil => exact .inr ⟨not_mem_nil, h⟩
  | cons t ts ih =>
    rcases ih h with hle | ⟨hu, hks⟩
    · exact .inl hle
    · have hone : (AnalysisCtx.intersectStack { c with edges := c.edges ++ [(curr, t)] } t
          c.stack).knownStacks u = some ks := hks
      rcases intersectStack_known hone with hle | ⟨hut, hks⟩
      · exact .inl hle
      · exact .inr ⟨by simp [hut, hu], hks⟩

theorem pushBranchTargets_knownStacks {b : Bool} {curr u : ℕ} {ts : List ℕ} (hu : u ∉ ts) :
    (ts.foldl (AnalysisCtx.pushBranchTarget b curr) c).knownStacks u = c.knownStacks u := by
  induction ts generalizing c with
  | nil => rfl
  | cons t ts ih =>
    obtain ⟨hut, hu⟩ := not_or.mp fun h => hu (mem_cons.mpr h)
    rw [foldl_cons, ih hu, AnalysisCtx.pushBranchTarget]
    cases b with
    | false => rfl
    | true =>
      show Function.update c.knownStacks t _ u = _
      exact Function.update_of_ne hut _ _

theorem intersectExceptionHandlers_knownStacks {i : ℕ} :
    (c.intersectExceptionHandlers env i).knownStacks = c.knownStacks := by
  apply intersectExceptionHandlers_keeps (P := fun c' => c'.knownStacks = c.knownStacks) rfl
  intro e _ _ c' hc'
  exact hc'

theorem fillExceptionHandlers_stack : (c.fillExceptionHandlers env).stack = c.stack := by
  unfold AnalysisCtx.fillExceptionHandlers
  induction env.exceptionTable generalizing c with
  | nil => rfl
  | cons e es ih => exact ih

/-- Before the first pass the stacks of the handlers are known and no others. -/
theorem fillExceptionHandlers_knownStacks {t : ℕ}
    (h : c.knownStacks t = none ∨ c.knownStacks t = some [.reference]) :
    (c.fillExceptionHandlers env).knownStacks t =
      if ∃ e ∈ env.exceptionTable, e.handlerInsn = t then some [.reference]
      else c.knownStacks t := by
  unfold AnalysisCtx.fillExceptionHandlers
  induction env.exceptionTable generalizing c with
  | nil => simp
  | cons e es ih =>
    rw [foldl_cons]
    by_cases het : e.handlerInsn = t
    · have hone : (c.intersectStack e.handlerInsn [.reference]).knownStacks t =
          some [.reference] := by
        subst het
        rw [AnalysisCtx.intersectStack]
        rcases h with h | h <;> simp [h, intersectState]
      rw [ih (.inr hone), hone, ite_self, if_pos ⟨e, mem_cons_self, het⟩]
    · have hone : (c.intersectStack e.handlerInsn [.reference]).knownStacks t =
          c.knownStacks t := Function.update_of_ne (Ne.symm het) _ _
      rw [ih (hone.symm ▸ h), hone]
      simp [het]

end Known

def CodeMethod.startCtx (m : CodeMethod) (swizzle : List ℕ) (locals : List TypeKind) :
    AnalysisCtx :=
  let c : AnalysisCtx := ⟨[], locals, [], fun _ => none, fun _ => none, false⟩
  if m.missingSmt then c.fillExceptionHandlers (m.analysisEnv swizzle) else c

/-- A step of the analysis: some pass reaches the instruction in `s`, records `s₁` there and has
`s₂` after it. -/
def CodeMethod.AnalysisStep (m : CodeMethod) (i : ℕ) (insn : Instruction)
    (s s₁ s₂ : PassState) : Prop :=
  ∃ swizzle locals fin code, m.localsOnMethodEntry = .ok (swizzle, locals) ∧
    Visited m (m.analysisEnv swizzle) (m.startCtx swizzle locals) fin code i insn s ∧
    s.arrive (m.analysisEnv swizzle) i insn = .ok s₁ ∧
    s.step (m.analysisEnv swizzle) fin i insn = .ok s₂

/-- Every depth that some pass records for the method, every depth after an instruction and every
local in the rewritten code is within what the method declares. -/
structure CodeMethod.WithinDeclared (m : CodeMethod) (A : CodeAnalysis) : Prop where
  before : ∀ i insn s s₁ s₂, m.AnalysisStep i insn s s₁ s₂ → s₁.ctx.stack.length ≤ m.maxStack
  after : ∀ i insn s s₁ s₂, m.AnalysisStep i insn s s₁ s₂ → s₂.ctx.stack.length ≤ m.maxStack
  recorded : ∀ st ∈ A.states, st.stack.length ≤ m.maxStack
  locals : ∀ insn ∈ A.code, insn.namesLocal → insn.index < m.maxLocals

/-- The instruction pushes a value onto a stack that holds `max_stack` values already. -/
def Overfills (maxStack : ℕ) (insn : Instruction) (st : List TypeKind) : Prop :=
  let pushed := ((stackChange insn st).2.filter (· ≠ .void)).length
  0 < pushed ∧ maxStack ≤ st.length - (stackChange insn st).1 + (pushed - 1)

/-- Each handler follows an instruction that continues with it or is the target of a branch before
it. -/
def CodeMethod.HandlersEntered (m : CodeMethod) : Prop :=
  ∀ e ∈ m.exceptionTable, 0 < e.handlerInsn → e.handlerInsn < m.code.length →
    (∃ p, m.code[e.handlerInsn - 1]? = some p ∧ p.kind.terminates = false) ∨
    ∃ j < e.handlerInsn, ∃ b, m.code[j]? = some b ∧ e.handlerInsn ∈ b.branchTargets

theorem not_overfills_iff {maxStack : ℕ} {insn : Instruction} {st : List TypeKind}
    (h : st.length ≤ maxStack) : ¬ Overfills maxStack insn st ↔ depthAfter insn st ≤ maxStack := by
  unfold Overfills depthAfter
  dsimp only
  omega

section Invariant

variable {m : CodeMethod} {swizzle : List ℕ}

def CodeMethod.HandlerOnly (m : CodeMethod) (i t : ℕ) : Prop :=
  m.maxStack = 0 ∧ (∃ e ∈ m.exceptionTable, e.handlerInsn = t) ∧
    ∀ j < i, ∀ b, m.code[j]? = some b → t ∉ b.branchTargets

/-- What is known about the targets fits, but for a handler that nothing else has reached. -/
def CodeMethod.KnownFits (m : CodeMethod) (i : ℕ) (c : AnalysisCtx) : Prop :=
  m.missingSmt = true → ∀ t st, c.knownStacks t = some st →
    st.length ≤ m.maxStack ∨ m.HandlerOnly i t

/-- What holds before instruction `i` of a pass in which nothing was pushed onto a full stack. -/
structure DepthInv (m : CodeMethod) (code : List Instruction) (i : ℕ) (s : PassState) : Prop where
  flow : code.map Instruction.flow = m.code.map Instruction.flow
  done : s.code.map Instruction.flow = (code.take i).map Instruction.flow
  stack : s.ctx.stack.length ≤ m.maxStack
  frame : s.iter.stack.length ≤ m.maxStack
  paired : ∃ ks, s.iter.locals = localSlots ks
  known : m.KnownFits i s.ctx
  recorded : ∀ st ∈ s.states, st.stack.length ≤ m.maxStack
  ended : s.terminated = true → i = 0 ∨
    ∃ p, m.code[i - 1]? = some p ∧ p.kind.terminates = true
  start : m.missingSmt = true → s.iter.pc = 0 ∧ s.iter.hasNext = false

variable {code : List Instruction} {insn : Instruction}

theorem flow_of_code {i : ℕ} (hflow : code.map Instruction.flow = m.code.map Instruction.flow)
    (hi : code[i]? = some insn) :
    ∃ insn₀, m.code[i]? = some insn₀ ∧ insn₀.flow = insn.flow := by
  have hget : (m.code.map Instruction.flow)[i]? = some insn.flow := by
    rw [← hflow, getElem?_map, hi]
    rfl
  rw [getElem?_map] at hget
  exact Option.map_eq_some_iff.mp hget

/-- A handler that a pass recovers without a branch before it does not exist. -/
theorem DepthInv.not_handlerOnly {i : ℕ}
    {s : PassState} (h : DepthInv m code i s) (hsmt : m.missingSmt = true)
    (hentered : m.maxStack = 0 → m.HandlersEntered) (hi : code[i]? = some insn)
    (hpc : insn.originalPc ≠ s.iter.pc) (hterm : s.terminated = true) : ¬ m.HandlerOnly i i := by
  rintro ⟨hzero, ⟨e, he, hei⟩, hbranch⟩
  obtain ⟨insn₀, hget, hsame⟩ := flow_of_code h.flow hi
  have hpos : i ≠ 0 := by
    rintro rfl
    apply hpc
    rw [(h.start hsmt).1, ← (flow_eq_iff.mp hsame).1]
    exact m.pc_zero insn₀ hget
  obtain ⟨hlt, -⟩ := List.getElem?_eq_some_iff.mp hget
  rcases hentered hzero e he (by omega) (by omega) with ⟨p, hp, hcont⟩ | ⟨j, hj, b, hb, htarget⟩
  · obtain ⟨p', hp', hends⟩ := (h.ended hterm).resolve_left hpos
    rw [hei] at hp
    cases hp.symm.trans hp'
    rw [hcont] at hends
    cases hends
  · rw [hei] at hj htarget
    exact hbranch j hj b hb htarget

/-- Where every state before the instruction fits, so does the one at it. -/
theorem DepthInv.arrive {i : ℕ} {s s₁ : PassState}
    (h : DepthInv m code i s) (hentered : m.missingSmt = true → m.maxStack = 0 → m.HandlersEntered)
    (hi : code[i]? = some insn) (hs₁ : s.arrive (m.analysisEnv swizzle) i insn = .ok s₁) :
    s₁.ctx.stack.length ≤ m.maxStack ∧ m.KnownFits i s₁.ctx ∧
      s₁.iter.stack.length ≤ m.maxStack ∧ (∃ ks, s₁.iter.locals = localSlots ks) ∧
      (m.missingSmt = true → s₁.iter = s.iter) := by
  cases arrivesBy_of_arrive hs₁ with
  | frame hpc hit =>
    have hstack : ((s.iter.stack.map ValidationKind.representation).reverse).length ≤
        m.maxStack := by
      rw [length_reverse, length_map]
      exact h.frame
    rcases hit with ⟨hnext, rfl⟩ | ⟨hnext, hit⟩
    · exact ⟨hstack, h.known, h.frame, h.paired, fun _ => rfl⟩
    · obtain ⟨ks, hks⟩ := h.paired
      have hadv := FrameIterator.next_advanced hks hit
      refine ⟨hstack, h.known, hadv.stack_le, hadv.paired, fun hsmt => ?_⟩
      rw [(h.start hsmt).2] at hnext
      cases hnext
  | known hpc hsmt hterm hst hls =>
    refine ⟨?_, ?_, h.frame, h.paired, fun _ => rfl⟩
    · rw [intersectExceptionHandlers_stack, length_reverse]
      rcases h.known hsmt i _ hst with hle | honly
      · exact hle
      · exact absurd honly (h.not_handlerOnly hsmt (hentered hsmt) hi hpc hterm)
    · intro hsmt t st ht
      rw [intersectExceptionHandlers_knownStacks] at ht
      exact h.known hsmt t st ht
  | merged hpc hsmt hterm =>
    refine ⟨?_, ?_, h.frame, h.paired, fun _ => rfl⟩
    · rw [intersectExceptionHandlers_stack]
      exact h.stack
    · intro hsmt t st ht
      rw [intersectExceptionHandlers_knownStacks] at ht
      have hmeet : (s.ctx.intersectStack i s.ctx.stack).knownStacks t = some st := ht
      rcases intersectStack_known hmeet with hle | ⟨-, hold⟩
      · exact .inl (hle.trans h.stack)
      · exact h.known hsmt t st hold
  | carried hpc hsmt => exact ⟨h.stack, h.known, h.frame, h.paired, fun _ => rfl⟩

theorem Analyzed.depth_eq {env : AnalysisEnv} {i : ℕ} {fin : Bool} {insn insn' : Instruction}
    {c c' : AnalysisCtx} (h : analyzeInstruction env fin i insn c = .ok (c', insn')) :
    c'.stack.length = depthAfter insn c.stack := by
  obtain ⟨before, after, insn₁, -, -, hana, -⟩ := analyzeInstruction_analyzed h
  exact hana.depth

theorem analyzeInstruction_flow {env : AnalysisEnv} {i : ℕ} {fin : Bool}
    {insn insn' : Instruction} {c c' : AnalysisCtx}
    (h : analyzeInstruction env fin i insn c = .ok (c', insn')) : insn'.flow = insn.flow := by
  obtain ⟨before, after, insn₁, -, -, hana, rfl⟩ := analyzeInstruction_analyzed h
  exact hana.flow_eq

/-- An instruction that pushes nothing onto a full stack keeps the bound. -/
theorem DepthInv.step {i : ℕ} {fin : Bool} {s s₁ s₂ : PassState} (h : DepthInv m code i s)
    (hentered : m.missingSmt = true → m.maxStack = 0 → m.HandlersEntered)
    (hi : code[i]? = some insn) (hs₁ : s.arrive (m.analysisEnv swizzle) i insn = .ok s₁)
    (hs₂ : s.step (m.analysisEnv swizzle) fin i insn = .ok s₂)
    (hfit : ¬ Overfills m.maxStack insn s₁.ctx.stack) : DepthInv m code (i + 1) s₂ := by
  obtain ⟨s₁', c, insn', harr, hana, rfl⟩ := step_eq_ok hs₂
  cases hs₁.symm.trans harr
  obtain ⟨hstack, hknown, hframe, hpaired, hsame⟩ := h.arrive hentered hi hs₁
  have hdepth : c.stack.length ≤ m.maxStack := by
    rw [Analyzed.depth_eq hana]
    exact (not_overfills_iff hstack).mp hfit
  obtain ⟨insn₀, hget, hflow⟩ := flow_of_code h.flow hi
  obtain ⟨hpc, hterm, htargets, -⟩ := flow_eq_iff.mp hflow
  constructor
  · exact h.flow
  · show (s₁.code ++ [insn']).map Instruction.flow = _
    rw [(arrive_recorded hs₁).2, map_append, h.done, take_add_one, hi, map_append,
      map_singleton, analyzeInstruction_flow hana]
    rfl
  · exact hdepth
  · exact hframe
  · exact hpaired
  · intro hsmt t st ht
    have hfold : (insn.branchTargets.foldl (AnalysisCtx.pushBranchTarget true i)
        { s₁.ctx with stack := c.stack, locals := c.locals }).knownStacks t = some st := by
      have heq := analyzeInstruction_targets hana
      rw [show (m.analysisEnv swizzle).missingSmt = true from hsmt] at heq
      exact heq ▸ ht
    rcases pushBranchTargets_known hfold with hle | ⟨hnot, hold⟩
    · exact .inl (hle.trans hdepth)
    · rcases hknown hsmt t st hold with hle | ⟨hzero, hhandler, hbranch⟩
      · exact .inl hle
      · refine .inr ⟨hzero, hhandler, fun j hj b hb => ?_⟩
        by_cases hji : j = i
        · subst hji
          cases hget.symm.trans hb
          rw [htargets]
          exact hnot
        · exact hbranch j (by omega) b hb
  · show ∀ st ∈ s₁.states ++ [⟨s₁.ctx.stack, s₁.ctx.locals⟩], st.stack.length ≤ m.maxStack
    rw [(arrive_recorded hs₁).1]
    intro st hst
    rcases mem_append.mp hst with hst | hst
    · exact h.recorded st hst
    · rw [mem_singleton.mp hst]
      exact hstack
  · intro hends
    exact .inr ⟨insn₀, hget, hterm.trans hends⟩
  · intro hsmt
    have hiter := hsame hsmt
    show s₁.iter.pc = 0 ∧ s₁.iter.hasNext = false
    rw [hiter]
    exact h.start hsmt

structure DepthStart (m : CodeMethod) (c : AnalysisCtx) (code : List Instruction) : Prop where
  flow : code.map Instruction.flow = m.code.map Instruction.flow
  stack : c.stack.length ≤ m.maxStack
  known : m.KnownFits 0 c

theorem initIterator_fits {it : FrameIterator} (h : m.initIterator = .ok it) :
    it.stack.length ≤ m.maxStack ∧ ∃ ks, it.locals = localSlots ks := by
  unfold CodeMethod.initIterator at h
  dsimp only at h
  split at h
  · have hadv := FrameIterator.next_advanced (initLocals_eq m) h
    exact ⟨hadv.stack_le, hadv.paired⟩
  · cases h
    exact ⟨Nat.zero_le _, m.entryLocals, initLocals_eq m⟩

theorem DepthStart.begin {c : AnalysisCtx} {it : FrameIterator}
    (h : DepthStart m c code) (hit : m.initIterator = .ok it) :
    DepthInv m code 0 ⟨c, it, true, [], []⟩ := by
  obtain ⟨hframe, hpaired⟩ := initIterator_fits hit
  constructor
  · exact h.flow
  · rfl
  · exact h.stack
  · exact hframe
  · exact hpaired
  · exact h.known
  · exact nofun
  · exact fun _ => .inl rfl
  · intro hsmt
    obtain ⟨hpc, hnext, -⟩ := initIterator_missing hsmt hit
    exact ⟨hpc, hnext⟩

theorem DepthInv.flow_end {s : PassState} (h : DepthInv m code code.length s) :
    s.code.map Instruction.flow = m.code.map Instruction.flow := by
  rw [h.done, take_length, h.flow]

theorem DepthInv.restart {s : PassState} {b : Bool}
    (h : DepthInv m code code.length s) : DepthStart m { s.ctx with changed := b } s.code := by
  refine ⟨h.flow_end, h.stack, fun hsmt t st ht => ?_⟩
  rcases h.known hsmt t st ht with hle | ⟨hzero, hhandler, -⟩
  · exact .inl hle
  · exact .inr ⟨hzero, hhandler, fun j hj => absurd hj (Nat.not_lt_zero j)⟩

theorem startCtx_fits {locals : List TypeKind} :
    DepthStart m (m.startCtx swizzle locals) m.code := by
  refine ⟨rfl, ?_, fun hsmt t st ht => ?_⟩
  · unfold CodeMethod.startCtx
    dsimp only
    split
    · rw [fillExceptionHandlers_stack]
      exact Nat.zero_le _
    · exact Nat.zero_le _
  · unfold CodeMethod.startCtx at ht
    dsimp only at ht
    rw [if_pos hsmt, fillExceptionHandlers_knownStacks (.inl rfl)] at ht
    split at ht
    · rename_i hhandler
      cases ht
      by_cases hzero : m.maxStack = 0
      · exact .inr ⟨hzero, hhandler, fun j hj => absurd hj (Nat.not_lt_zero j)⟩
      · exact .inl (Nat.one_le_iff_ne_zero.mpr hzero)
    · cases ht

end Invariant

section Runs

variable {m : CodeMethod} {swizzle : List ℕ} {locals : List TypeKind}

/-- Wherever a pass gets to, everything fits, if nothing is ever pushed onto a full stack. -/
theorem depthInv_invariant (hentry : m.localsOnMethodEntry = .ok (swizzle, locals))
    (hfit : ∀ i insn s s₁ s₂, m.AnalysisStep i insn s s₁ s₂ →
      ¬ Overfills m.maxStack insn s₁.ctx.stack)
    (hentered : m.missingSmt = true → m.maxStack = 0 → m.HandlersEntered) :
    PassInvariant m (m.analysisEnv swizzle) (m.startCtx swizzle locals)
      (fun _ c code => DepthStart m c code) fun _ code i s => DepthInv m code i s := by
  constructor
  · exact startCtx_fits
  · exact fun fin c code it hstart hit => hstart.begin hit
  · intro fin code i insn s s₂ hvisited hinv hs₂
    obtain ⟨s₁, c, insn', hs₁, -, -⟩ := step_eq_ok hs₂
    exact hinv.step hentered hvisited.insn hs₁ hs₂
      (hfit i insn s s₁ s₂ ⟨swizzle, locals, fin, code, hentry, hvisited, hs₁, hs₂⟩)
  · exact fun fin code s hinv _ => hinv.restart
  · exact fun code s hinv _ => hinv.restart

def LocalsExist (m : CodeMethod) (code : List Instruction) : Prop :=
  ∀ insn ∈ code, insn.namesLocal → insn.index < m.maxLocals ∨ insn.kind = .ret

variable {insn : Instruction}

theorem LocalsExist.step {i : ℕ} {s s₂ : PassState}
    (hz : Swizzles m.maxLocals swizzle) (h : LocalsExist m s.code)
    (hs₂ : s.step (m.analysisEnv swizzle) true i insn = .ok s₂) : LocalsExist m s₂.code := by
  obtain ⟨s₁, c, insn', hs₁, hana, rfl⟩ := step_eq_ok hs₂
  obtain ⟨before, after, insn₁, -, -, hinsn, rfl⟩ := analyzeInstruction_analyzed hana
  show LocalsExist m (s₁.code ++ [_])
  rw [(arrive_recorded hs₁).2]
  intro o ho hnames
  rcases mem_append.mp ho with ho | ho
  · exact h o ho hnames
  · obtain rfl := mem_singleton.mp ho
    exact hinsn.index_lt hz hnames

theorem passFrom_localsExist {i : ℕ} {rest : List Instruction} {s s' : PassState}
    (hz : Swizzles m.maxLocals swizzle) (h : LocalsExist m s.code)
    (hpass : passFrom (m.analysisEnv swizzle) true i rest s = .ok s') : LocalsExist m s'.code := by
  induction rest generalizing i s with
  | nil =>
    cases hpass
    exact h
  | cons insn rest ih =>
    rw [passFrom_cons] at hpass
    obtain ⟨s₂, hs₂, hrest⟩ := bind_eq_ok.mp hpass
    exact ih (h.step hz hs₂) hrest

/-- What holds in the first pass about a handler that nothing before instruction `i` leads to. -/
structure HandlerInv (m : CodeMethod) (code : List Instruction) (i : ℕ) (s : PassState) :
    Prop where
  known : ∀ t, i ≤ t → (∃ e ∈ m.exceptionTable, e.handlerInsn = t) →
    (∀ j < i, ∀ b, code[j]? = some b → t ∉ b.branchTargets) →
    s.ctx.knownStacks t = some [.reference]
  terminated : ∀ p, i ≠ 0 → code[i - 1]? = some p → s.terminated = p.kind.terminates
  start : s.iter.pc = 0 ∧ s.iter.hasNext = false

theorem HandlerInv.step {code : List Instruction} {i : ℕ} {fin : Bool}
    {s s₂ : PassState} (h : HandlerInv m code i s) (hi : code[i]? = some insn)
    (hs₂ : s.step (m.analysisEnv swizzle) fin i insn = .ok s₂) :
    HandlerInv m code (i + 1) s₂ := by
  obtain ⟨s₁, c, insn', hs₁, hana, rfl⟩ := step_eq_ok hs₂
  have harr := arrivesBy_of_arrive hs₁
  have hiter : s₁.iter = s.iter := by
    cases harr with
    | frame hpc hit =>
      rcases hit with ⟨-, rfl⟩ | ⟨hnext, -⟩
      · rfl
      · rw [h.start.2] at hnext
        cases hnext
    | known => rfl
    | merged => rfl
    | carried => rfl
  have hsame : ∀ t, i < t → s₁.ctx.knownStacks t = s.ctx.knownStacks t := by
    intro t ht
    cases harr with
    | frame => rfl
    | known => exact congrFun intersectExceptionHandlers_knownStacks t
    | merged =>
      refine (congrFun intersectExceptionHandlers_knownStacks t).trans ?_
      exact Function.update_of_ne (by omega) _ _
    | carried => rfl
  constructor
  · intro t ht hhandler hbranch
    have hnot : t ∉ insn.branchTargets := hbranch i (by omega) insn hi
    have hold := h.known t (by omega) hhandler fun j hj => hbranch j (by omega)
    show c.knownStacks t = some [.reference]
    rw [analyzeInstruction_targets hana, pushBranchTargets_knownStacks hnot, ← hold]
    exact hsame t ht
  · intro p _ hp
    rw [Nat.add_sub_cancel, hi] at hp
    cases hp
    rfl
  · show s₁.iter.pc = 0 ∧ s₁.iter.hasNext = false
    rw [hiter]
    exact h.start

/-- In an accepted method that declares no stack, a handler that nothing before it leads to is
recorded with the exception on its stack. -/
theorem handlersEntered_of_within {fuel : ℕ} {A : CodeAnalysis}
    (h : analyzeMethodCode fuel m = some (.ok A)) (hsmt : m.missingSmt = true)
    (hzero : m.maxStack = 0)
    (hwithin : ∀ i insn s s₁ s₂, m.AnalysisStep i insn s s₁ s₂ → s₁.ctx.stack.length ≤ m.maxStack) :
    m.HandlersEntered := by
  obtain ⟨swizzle, locals, c₀, s, hentry, rfl, hpasses, -, -⟩ := analyzeMethodCode_eq_ok h
  have hstart : PassStart m (m.analysisEnv swizzle) (m.startCtx swizzle locals) (!m.missingSmt)
      (m.startCtx swizzle locals) m.code := .first
  obtain ⟨it, s', hit, hpass⟩ := analyzePasses_first hpasses
  intro e he hpos hlt
  by_contra hcontra
  obtain ⟨hprev, hbranch⟩ := not_or.mp hcontra
  obtain ⟨insn, hget⟩ : ∃ insn, m.code[e.handlerInsn]? = some insn :=
    ⟨_, getElem?_eq_getElem hlt⟩
  obtain ⟨p, hp⟩ : ∃ p, m.code[e.handlerInsn - 1]? = some p :=
    ⟨_, getElem?_eq_getElem (by omega)⟩
  obtain ⟨s₀, s₂, hs₀, hs₂⟩ := passFrom_step hpass hget
  have hinit : HandlerInv m m.code 0 ⟨m.startCtx swizzle locals, it, true, [], []⟩ := by
    refine ⟨fun t _ hhandler _ => ?_, fun p hne => absurd rfl hne, ?_⟩
    · show (m.startCtx swizzle locals).knownStacks t = _
      unfold CodeMethod.startCtx
      dsimp only
      rw [if_pos hsmt, fillExceptionHandlers_knownStacks (.inl rfl)]
      exact if_pos hhandler
    · obtain ⟨hpc, hnext, -⟩ := initIterator_missing hsmt hit
      exact ⟨hpc, hnext⟩
  have hinv : HandlerInv m m.code e.handlerInsn s₀ :=
    hstart.within (fun _ code i s => HandlerInv m code i s) hit hinit
      (fun fin code i insn s s₂ hvisited hinv hs₂ => hinv.step hvisited.insn hs₂) hlt.le hs₀
  have hterm : s₀.terminated = true := by
    rw [hinv.terminated p (by omega) hp]
    by_contra hends
    exact hprev ⟨p, hp, Bool.eq_false_iff.mpr hends⟩
  have hknown : s₀.ctx.knownStacks e.handlerInsn = some [.reference] := by
    refine hinv.known _ (Nat.le_refl _) ⟨e, he, rfl⟩ fun j hj b hb htarget => ?_
    exact hbranch ⟨j, hj, b, hb, htarget⟩
  obtain ⟨s₁, c, insn', hs₁, -, -⟩ := step_eq_ok hs₂
  have hle := hwithin _ insn s₀ s₁ s₂
    ⟨swizzle, locals, _, _, hentry, ⟨⟨_, it, hstart, hit, hs₀⟩, hget⟩, hs₁, hs₂⟩
  cases arrivesBy_of_arrive hs₁ with
  | frame hpc hit =>
    rw [hinv.start.1, CodeMethod.originalPc_eq_zero hget] at hpc
    omega
  | known hpc _ _ hst hls =>
    rw [intersectExceptionHandlers_stack] at hle
    cases hknown.symm.trans hst
    rw [hzero] at hle
    exact absurd hle (Nat.not_succ_le_zero 0)
  | merged hpc _ hcont =>
    rw [hterm] at hcont
    cases hcont
  | carried hpc hfalse =>
    rw [show (m.analysisEnv swizzle).missingSmt = true from hsmt] at hfalse
    cases hfalse

theorem CodeMethod.AnalysisStep.depth {i : ℕ} {s s₁ s₂ : PassState}
    (h : m.AnalysisStep i insn s s₁ s₂) :
    s₂.ctx.stack.length = depthAfter insn s₁.ctx.stack := by
  obtain ⟨swizzle, locals, fin, code, -, -, hs₁, hs₂⟩ := h
  obtain ⟨s₁', c, insn', harr, hana, rfl⟩ := step_eq_ok hs₂
  cases hs₁.symm.trans harr
  exact Analyzed.depth_eq hana

theorem ret_of_flow {code code₂ : List Instruction}
    (hflow : code.map Instruction.flow = code₂.map Instruction.flow) (hinsn : insn ∈ code)
    (hret : insn.kind = .ret) : ∃ o ∈ code₂, o.kind = .ret ∧ o.index = insn.index := by
  have hmem : insn.flow ∈ code₂.map Instruction.flow := by
    rw [← hflow]
    exact mem_map_of_mem hinsn
  obtain ⟨o, ho, hsame⟩ := mem_map.mp hmem
  have hindex := (flow_eq_iff.mp hsame).2.2.2
  rw [if_pos hret] at hindex
  split at hindex
  · rename_i hk
    exact ⟨o, ho, hk, Option.some.inj hindex⟩
  · cases hindex

/-- The analysis keeps an accepted method within its declared stack and locals exactly if it never
pushes onto a stack of `max_stack` values, no `ret` names a local from `max_locals` on and, where
the method has no stack map table and declares no stack, every handler is entered from code before
it. -/
theorem withinDeclared_iff {fuel : ℕ} {A : CodeAnalysis}
    (h : analyzeMethodCode fuel m = some (.ok A)) :
    m.WithinDeclared A ↔
      (∀ i insn s s₁ s₂, m.AnalysisStep i insn s s₁ s₂ →
        ¬ Overfills m.maxStack insn s₁.ctx.stack) ∧
      (m.missingSmt = true → m.maxStack = 0 → m.HandlersEntered) ∧
      ∀ insn ∈ m.code, insn.kind = .ret → insn.index < m.maxLocals := by
  obtain ⟨swizzle, locals, c₀, s, hentry, rfl, hpasses, hcode, hstates⟩ := analyzeMethodCode_eq_ok h
  obtain ⟨hz, -, -⟩ := localsOnMethodEntry_swizzles hentry
  obtain ⟨c, code, it, hstart, hit, hpass⟩ := analyzePasses_last .first hpasses
  have hexist : LocalsExist m A.code := by
    rw [hcode]
    exact passFrom_localsExist hz (fun insn hinsn => absurd hinsn not_mem_nil) hpass
  have hend : (∀ i insn s s₁ s₂, m.AnalysisStep i insn s s₁ s₂ →
      ¬ Overfills m.maxStack insn s₁.ctx.stack) →
      (m.missingSmt = true → m.maxStack = 0 → m.HandlersEntered) →
      DepthInv m code code.length s := fun hfit hentered =>
    ((depthInv_invariant hentry hfit hentered).start hstart).2 it s hit hpass
  constructor
  · intro hwithin
    have hfit : ∀ i insn s s₁ s₂, m.AnalysisStep i insn s s₁ s₂ →
        ¬ Overfills m.maxStack insn s₁.ctx.stack := by
      intro i insn s s₁ s₂ hstep
      apply (not_overfills_iff (hwithin.before i insn s s₁ s₂ hstep)).mpr
      rw [← hstep.depth]
      exact hwithin.after i insn s s₁ s₂ hstep
    have hentered := fun hsmt hzero => handlersEntered_of_within h hsmt hzero hwithin.before
    refine ⟨hfit, hentered, fun insn hinsn hret => ?_⟩
    have hflow := (hend hfit hentered).flow_end
    rw [← hcode] at hflow
    obtain ⟨o, ho, hk, hindex⟩ := ret_of_flow hflow.symm hinsn hret
    rw [← hindex]
    exact hwithin.locals o ho (.inr (.inr (.inr hk)))
  · rintro ⟨hfit, hentered, hret⟩
    have hbefore : ∀ i insn s s₁ s₂, m.AnalysisStep i insn s s₁ s₂ →
        s₁.ctx.stack.length ≤ m.maxStack := by
      rintro i insn s s₁ s₂ ⟨swizzle, locals, fin, code, hentry, hvisited, hs₁, -⟩
      have hinv := (depthInv_invariant hentry hfit hentered).visited hvisited
      exact (hinv.arrive hentered hvisited.insn hs₁).1
    constructor
    · exact hbefore
    · intro i insn s s₁ s₂ hstep
      rw [hstep.depth]
      apply (not_overfills_iff (hbefore i insn s s₁ s₂ hstep)).mp
      exact hfit i insn s s₁ s₂ hstep
    · rw [hstates]
      exact (hend hfit hentered).recorded
    · intro insn hinsn hnames
      rcases hexist insn hinsn hnames with hlt | hk
      · exact hlt
      · have hflow := (hend hfit hentered).flow_end
        rw [← hcode] at hflow
        obtain ⟨o, ho, hk', hindex⟩ := ret_of_flow hflow hinsn hk
        rw [← hindex]
        exact hret o ho hk'

end Runs

def pushOnce (maxStack : ℕ) : CodeMethod where
  maxStack := maxStack
  maxLocals := 0
  code := [{ kind := .iconst, originalPc := 0 }, { kind := .pop, originalPc := 1 },
    { kind := .returnVoid, originalPc := 2 }]
  exceptionTable := []
  lvt := []
  stackMapTable := none
  pc_zero := by simp
  pc_lt := by decide
  isStatic := true
  isCtor := false
  descriptor := .empty
  missingSmt := false
  missing_eq := CodeMethod.noTable_eq

theorem pushOnce_withinDeclared :
    ∃ A, analyzeMethodCode 1 (pushOnce 1) = some (.ok A) ∧
      ((pushOnce 1).WithinDeclared A ↔
        (∀ i insn s s₁ s₂, (pushOnce 1).AnalysisStep i insn s s₁ s₂ →
          ¬ Overfills 1 insn s₁.ctx.stack) ∧
        (false = true → 1 = 0 → (pushOnce 1).HandlersEntered) ∧
        ∀ insn ∈ (pushOnce 1).code, insn.kind = .ret → insn.index < 0) :=
  ⟨_, rfl, withinDeclared_iff (show analyzeMethodCode 1 (pushOnce 1) = _ from rfl)⟩

/-- A method that declares no stack is accepted with a value on it. -/
theorem pushOnce_overfilled :
    ∃ A, analyzeMethodCode 1 (pushOnce 0) = some (.ok A) ∧ ¬ (pushOnce 0).WithinDeclared A := by
  refine ⟨_, rfl, fun h => ?_⟩
  have hle := h.recorded ⟨[.int], []⟩ (mem_cons_of_mem _ mem_cons_self)
  exact absurd hle (Nat.not_succ_le_zero 0)

end TraceJvm
