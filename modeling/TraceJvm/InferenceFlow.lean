import TraceJvm.DeclaredStack
import TraceJvm.Lib.ValueFlow

/-! The analysis without a stack map table as a data flow problem: the control-flow edges of a
method, the ones that the refinement loop merges, and what it loses by that. -/
namespace TraceJvm
open ValueFlow

def Instruction.writes (insn : Instruction) (l : ℕ) (k : TypeKind) : TypeKind :=
  match storeKind insn.kind with
  | some k' => if l = insn.index then k' else k
  | none => k

def CodeMethod.Leader (m : CodeMethod) (i : ℕ) : Prop :=
  0 < i ∧ ∃ p, m.code[i - 1]? = some p ∧ p.kind.terminates = true

/-- The control-flow edges, with what happens to the locals on the way. An exception leaves the
locals as they are before the instruction. -/
inductive CodeMethod.Edge (m : CodeMethod) : ℕ → ℕ → (ℕ → TypeKind → TypeKind) → Prop where
  | next {i : ℕ} {insn : Instruction} (hi : m.code[i]? = some insn)
      (hcont : insn.kind.terminates = false) : Edge m i (i + 1) insn.writes
  | branch {i t : ℕ} {insn : Instruction} (hi : m.code[i]? = some insn)
      (ht : t ∈ insn.branchTargets) : Edge m i t insn.writes
  | handler {i : ℕ} {insn : Instruction} {e : ExceptionEntry} (hi : m.code[i]? = some insn)
      (he : e ∈ m.exceptionTable) (hcov : e.covers i) : Edge m i e.handlerInsn fun _ k => k

/-- The edges that the refinement loop merges. A recovered state is used only at an instruction that
control does not fall into, and the instruction 0 never tells its handlers. -/
inductive CodeMethod.MergedEdge (m : CodeMethod) :
    ℕ → ℕ → (ℕ → TypeKind → TypeKind) → Prop where
  | next {i : ℕ} {insn : Instruction} (hi : m.code[i]? = some insn)
      (hcont : insn.kind.terminates = false) : MergedEdge m i (i + 1) insn.writes
  | branch {i t : ℕ} {insn : Instruction} (hi : m.code[i]? = some insn)
      (ht : t ∈ insn.branchTargets) (hlead : m.Leader t) : MergedEdge m i t insn.writes
  | handler {i : ℕ} {insn : Instruction} {e : ExceptionEntry} (hi : m.code[i]? = some insn)
      (he : e ∈ m.exceptionTable) (hcov : e.covers i) (hpos : 0 < i)
      (hlead : m.Leader e.handlerInsn) : MergedEdge m i e.handlerInsn fun _ k => k

inductive CodeMethod.MissedEdge (m : CodeMethod) :
    ℕ → ℕ → (ℕ → TypeKind → TypeKind) → Prop where
  | branch {i t : ℕ} {insn : Instruction} (hi : m.code[i]? = some insn)
      (ht : t ∈ insn.branchTargets) (hlead : ¬ m.Leader t) : MissedEdge m i t insn.writes
  | handler {i : ℕ} {insn : Instruction} {e : ExceptionEntry} (hi : m.code[i]? = some insn)
      (he : e ∈ m.exceptionTable) (hcov : e.covers i)
      (hmissed : i = 0 ∨ ¬ m.Leader e.handlerInsn) : MissedEdge m i e.handlerInsn fun _ k => k

section Edges

variable {m : CodeMethod} {i t : ℕ} {f : ℕ → TypeKind → TypeKind}

theorem Instruction.writes_simple (insn : Instruction) : Simple insn.writes := by
  intro l
  unfold Instruction.writes
  cases storeKind insn.kind with
  | none => exact .inr fun x => rfl
  | some k =>
    by_cases hl : l = insn.index
    · exact .inl ⟨k, fun x => if_pos hl⟩
    · exact .inr fun x => if_neg hl

theorem CodeMethod.Edge.simple (h : m.Edge i t f) : Simple f := by
  cases h with
  | next | branch => exact Instruction.writes_simple _
  | handler => exact fun l => .inr fun x => rfl

theorem CodeMethod.MergedEdge.edge (h : m.MergedEdge i t f) : m.Edge i t f := by
  cases h with
  | next hi hcont => exact .next hi hcont
  | branch hi ht => exact .branch hi ht
  | handler hi he hcov => exact .handler hi he hcov

theorem CodeMethod.MissedEdge.edge (h : m.MissedEdge i t f) : m.Edge i t f := by
  cases h with
  | branch hi ht => exact .branch hi ht
  | handler hi he hcov => exact .handler hi he hcov

theorem CodeMethod.Edge.merged_or_missed (h : m.Edge i t f) :
    m.MergedEdge i t f ∨ m.MissedEdge i t f := by
  cases h with
  | next hi hcont => exact .inl (.next hi hcont)
  | branch hi ht =>
    by_cases hlead : m.Leader t
    · exact .inl (.branch hi ht hlead)
    · exact .inr (.branch hi ht hlead)
  | @handler _ e hi he hcov =>
    by_cases hmerged : 0 < i ∧ m.Leader e.handlerInsn
    · exact .inl (.handler hi he hcov hmerged.1 hmerged.2)
    · refine .inr (.handler hi he hcov ?_)
      by_cases hpos : 0 < i
      · exact .inr fun hlead => hmerged ⟨hpos, hlead⟩
      · exact .inl (Nat.eq_zero_of_not_pos hpos)

end Edges

def CodeMethod.flow (m : CodeMethod) : Graph ℕ ℕ TypeKind where
  start := 0
  initial := (KindFrame.ofDeclared m.entryFrame).locals
  edge := m.Edge
  simple _ _ _ h := h.simple

def CodeMethod.mergedFlow (m : CodeMethod) : Graph ℕ ℕ TypeKind where
  start := 0
  initial := (KindFrame.ofDeclared m.entryFrame).locals
  edge := m.MergedEdge
  simple _ _ _ h := h.edge.simple

def CodeMethod.LeadersEntered (m : CodeMethod) : Prop :=
  ∀ i, m.Leader i → i < m.code.length → ∃ j f, j < i ∧ m.MergedEdge j i f

/-- A local that has one kind along all merged paths to the end of an edge that is not merged has
this kind along the edge as well. -/
def CodeMethod.MissedEdgesAgree (m : CodeMethod) : Prop :=
  ∀ i t f, m.MissedEdge i t f → ∀ l k, l < m.maxLocals → k ≠ .void → m.mergedFlow.Settled t l k →
    ∀ k', m.mergedFlow.Holds i l k' → f l k' = k

/-- The method is old, passes the verifier by inference with the frames `T`, which fit the declared
stack, and its arguments and named variables fit its locals. -/
structure InferenceVerified (m : CodeMethod) (T : ℕ → Option KindFrame) : Prop
    extends InferredTyping m T where
  missing : m.missingSmt = true
  depth : ∀ i f, T i = some f → f.stack.length ≤ m.maxStack
  arguments : m.entrySlots.isSome
  lvtIndices : ∀ i ∈ m.lvt, i < m.maxLocals

/-- Kinds that are known less precisely: `void` stands for no kind. -/
def NoMorePrecise (a b : List TypeKind) : Prop := List.Forall₂ (fun x y => x = .void ∨ x = y) a b

def CodeAnalysis.AtMost (A : CodeAnalysis) (t : ℕ) (st ls : List TypeKind) : Prop :=
  ∃ r, A.states[t]? = some r ∧ NoMorePrecise r.stack st ∧ NoMorePrecise r.locals ls

def CodeMethod.produce (m : CodeMethod) (swizzle : List ℕ) (i : ℕ) (insn : Instruction)
    (r : StackSummary) : Except AnalysisError StackSummary :=
  (analyzeInstruction (m.analysisEnv swizzle) false i insn
    ⟨r.stack, r.locals, [], fun _ => none, fun _ => none, false⟩).map fun p =>
      ⟨p.1.stack, p.1.locals⟩

/-- The recorded states are a post-fixpoint: along every edge, the state at its end is no more
precise than the one that the analysis of its start produces. So a kind recorded for a local is its
kind along every path. -/
structure CodeMethod.PostFixpoint (m : CodeMethod) (swizzle : List ℕ) (A : CodeAnalysis) :
    Prop where
  edges : ∀ i insn, m.code[i]? = some insn → ∃ r p, A.states[i]? = some r ∧
    m.produce swizzle i insn r = .ok p ∧
    (insn.kind.terminates = false → A.AtMost (i + 1) p.stack p.locals) ∧
    (∀ t ∈ insn.branchTargets, A.AtMost t p.stack p.locals) ∧
    ∀ e ∈ m.exceptionTable, e.covers i → A.AtMost e.handlerInsn [.reference] r.locals
  paths : ∀ i r l j k, A.states[i]? = some r → swizzle[l]? = some j → r.locals[j]? = some k →
    k ≠ .void → m.flow.Settled i l k

def CodeMethod.Refines (m : CodeMethod) : Prop :=
  ∃ fuel A swizzle locals, analyzeMethodCode fuel m = some (.ok A) ∧
    m.localsOnMethodEntry = .ok (swizzle, locals) ∧ m.PostFixpoint swizzle A

section Transfer

variable {m : CodeMethod} {T : ℕ → Option KindFrame} {insn insn' : Instruction}

theorem writes_of_storeKind_eq_none (hs : storeKind insn.kind = none) (l : ℕ) (k : TypeKind) :
    insn.writes l k = k := by
  rw [Instruction.writes, hs]

/-- What the analysis does to the locals. -/
theorem Analyzed.writes {env : AnalysisEnv} {b : Bool} {i l j : ℕ} {c : AnalysisCtx}
    {st ls : List TypeKind} (h : Analyzed env b i insn c st ls insn')
    (hz : Swizzles env.maxLocals env.swizzle) (hlen : c.locals.length = env.maxLocals)
    (hj : env.swizzle[l]? = some j) : ls[j]? = (c.locals[j]?).map (insn.writes l) := by
  have hkeep : storeKind insn.kind = none →
      c.locals[j]? = (c.locals[j]?).map (insn.writes l) := by
    intro hs
    rw [show insn.writes l = id from funext fun k => writes_of_storeKind_eq_none hs l k,
      Option.map_id, id]
  cases h with
  | load hk => exact hkeep (storeKind_of_loadKind hk)
  | store hl hk hst hstored =>
    have hlt : j < c.locals.length := hlen ▸ (hz.get_lt hj).2
    rw [List.getElem?_eq_getElem hlt, Option.map_some, Instruction.writes, hk]
    by_cases hl : l = insn.index
    · subst hl
      cases hj.symm.trans hstored
      rw [List.getElem?_set_self hlt]
      exact congrArg some (if_pos rfl).symm
    · have hne : _ ≠ j := fun heq => hl (hz.get_inj hj (heq ▸ hstored))
      rw [List.getElem?_set_ne hne, List.getElem?_eq_getElem hlt]
      exact congrArg some (if_neg hl).symm
  | iinc hk =>
    apply hkeep
    rw [hk]
    rfl
  | put hk =>
    apply hkeep
    rcases hk with hk | hk
    all_goals
      rw [hk]
      rfl
  | shuffle hk =>
    obtain ⟨-, hs, -⟩ := loadKind_of_isShuffle hk
    exact hkeep hs
  | effect hl hs => exact hkeep hs

/-- A kind that the type checker has for a local behind an instruction is stored by it or was the
one before it. -/
theorem Typed.writes {maxLocals l : ℕ} {f g : KindFrame} {k : TypeKind}
    (h : Typed maxLocals insn f g) (hk : g.locals l = k) (hv : k ≠ .void) :
    (∀ x, insn.writes l x = k) ∨ f.locals l = k ∧ insn.writes l k = k := by
  cases h with
  | load hload =>
    exact .inr ⟨hk, writes_of_storeKind_eq_none (storeKind_of_loadKind hload) l k⟩
  | store hload hstore hfit hst =>
    dsimp only [storeLocal] at hk
    by_cases hl : l = insn.index
    · left
      intro x
      rw [if_pos hl] at hk
      rw [Instruction.writes, hstore]
      exact (if_pos hl).trans hk
    · right
      rw [if_neg hl] at hk
      split at hk
      · exact absurd hk.symm hv
      split at hk
      · exact absurd hk.symm hv
      refine ⟨hk, ?_⟩
      rw [Instruction.writes, hstore]
      exact if_neg hl
  | iinc hkind =>
    have hs : storeKind insn.kind = none := by
      rw [hkind]
      rfl
    exact .inr ⟨hk, writes_of_storeKind_eq_none hs l k⟩
  | shuffle hshuffle =>
    obtain ⟨-, hs, -⟩ := loadKind_of_isShuffle hshuffle
    exact .inr ⟨hk, writes_of_storeKind_eq_none hs l k⟩
  | other hload hs => exact .inr ⟨hk, writes_of_storeKind_eq_none hs l k⟩

def TypedLocal (T : ℕ → Option KindFrame) (i l : ℕ) (k : TypeKind) : Prop :=
  ∃ f, T i = some f ∧ k ≠ .void ∧ f.locals l = k

theorem KindFrame.Assignable.local_eq {f g : KindFrame} (h : f.Assignable g) {l : ℕ}
    (hv : g.locals l ≠ .void) : g.locals l = f.locals l :=
  (h.locals l).resolve_left hv

variable {f : ℕ → TypeKind → TypeKind}

/-- A typing agrees with every edge between typed instructions. -/
theorem Typing.edge (ht : Typing m T) {i t l : ℕ} {k : TypeKind}
    {before : KindFrame} (hbefore : T i = some before) (he : m.Edge i t f)
    (hclaim : TypedLocal T t l k) : (∀ x, f l x = k) ∨ TypedLocal T i l k ∧ f l k = k := by
  obtain ⟨behind, hbehind, hv, hk⟩ := hclaim
  have hstep : ∀ {insn : Instruction} {g : KindFrame}, typeStep m.maxLocals insn before = some g →
      g.Assignable behind →
      (∀ x, insn.writes l x = k) ∨ TypedLocal T i l k ∧ insn.writes l k = k := by
    intro insn g hg hassign
    have hgk : g.locals l = k := by
      rw [← hassign.local_eq (hk ▸ hv), hk]
    rcases (typeStep_typed hg).writes hgk hv with hwritten | ⟨hf, hkept⟩
    · exact .inl hwritten
    · exact .inr ⟨⟨before, hbefore, hv, hf⟩, hkept⟩
  cases he with
  | next hi hcont =>
    obtain ⟨g, hg, -, hnext⟩ := ht.step i _ before hi hbefore
    obtain ⟨d, hd, hassign⟩ := hnext hcont
    cases hbehind.symm.trans hd
    exact hstep hg hassign
  | branch hi htarget =>
    obtain ⟨g, hg, hbranch, -⟩ := ht.step i _ before hi hbefore
    obtain ⟨d, hd, hassign⟩ := hbranch t htarget
    cases hbehind.symm.trans hd
    exact hstep hg hassign
  | handler hi he hcov =>
    obtain ⟨d, hd, hassign⟩ := ht.handlers i before hbefore _ he hcov
    cases hbehind.symm.trans hd
    refine .inr ⟨⟨before, hbefore, hv, ?_⟩, rfl⟩
    rw [← hk, hassign.local_eq (hk ▸ hv)]

theorem Typing.edge_live (ht : Typing m T) {i t : ℕ}
    {before : KindFrame} (hbefore : T i = some before) (he : m.Edge i t f) :
    ∃ behind, T t = some behind := by
  cases he with
  | next hi hcont =>
    obtain ⟨g, hg, -, hnext⟩ := ht.step i _ before hi hbefore
    obtain ⟨d, hd, -⟩ := hnext hcont
    exact ⟨d, hd⟩
  | branch hi htarget =>
    obtain ⟨g, hg, hbranch, -⟩ := ht.step i _ before hi hbefore
    obtain ⟨d, hd, -⟩ := hbranch t htarget
    exact ⟨d, hd⟩
  | handler hi he hcov =>
    obtain ⟨d, hd, -⟩ := ht.handlers i before hbefore _ he hcov
    exact ⟨d, hd⟩

theorem CodeMethod.next_or_leader (m : CodeMethod) {i : ℕ} (hpos : 0 < i)
    (hlt : i < m.code.length) : (∃ f, m.MergedEdge (i - 1) i f) ∨ m.Leader i := by
  have hget : m.code[i - 1]? = some (m.code.get ⟨i - 1, by omega⟩) :=
    List.getElem?_eq_getElem (by omega)
  by_cases hterm : (m.code.get ⟨i - 1, by omega⟩).kind.terminates = true
  · exact .inr ⟨hpos, _, hget, hterm⟩
  · left
    have hnext := CodeMethod.MergedEdge.next hget (Bool.eq_false_iff.mpr hterm)
    rw [Nat.sub_add_cancel hpos] at hnext
    exact ⟨_, hnext⟩

theorem CodeMethod.LeadersEntered.all {Q : ℕ → Prop} (h : m.LeadersEntered) (hzero : Q 0)
    (hedge : ∀ i t f, m.MergedEdge i t f → Q i → Q t) (i : ℕ) (hi : i < m.code.length) : Q i := by
  induction i using Nat.strong_induction_on with
  | _ i ih =>
    rcases Nat.eq_zero_or_pos i with rfl | hpos
    · exact hzero
    · rcases m.next_or_leader hpos hi with ⟨f, hmerged⟩ | hlead
      · exact hedge _ _ f hmerged (ih (i - 1) (by omega) (by omega))
      · obtain ⟨j, f, hji, hmerged⟩ := h i hlead hi
        exact hedge j i f hmerged (ih j hji (by omega))

theorem CodeMethod.Edge.lt {i t : ℕ} (h : m.Edge i t f) : i < m.code.length := by
  cases h with
  | next hi | branch hi | handler hi => exact (List.getElem?_eq_some_iff.mp hi).1

theorem CodeMethod.LeadersEntered.live (h : m.LeadersEntered) (ht : Typing m T) (i : ℕ)
    (hi : i < m.code.length) : ∃ f, T i = some f := by
  obtain ⟨f, hf, -⟩ := ht.entry
  refine h.all (Q := fun i => ∃ f, T i = some f) ⟨f, hf⟩ ?_ i hi
  rintro i t f hmerged ⟨before, hbefore⟩
  exact ht.edge_live hbefore hmerged.edge

theorem CodeMethod.LeadersEntered.reached (h : m.LeadersEntered) (i : ℕ) (hi : i < m.code.length)
    (l : ℕ) : ∃ k, m.mergedFlow.Holds i l k := by
  refine h.all (Q := fun i => ∃ k, m.mergedFlow.Holds i l k) ⟨_, .start l⟩ ?_ i hi
  rintro i t f hmerged ⟨k, hk⟩
  exact ⟨_, hk.edge hmerged⟩

theorem CodeMethod.LeadersEntered.carried (h : m.LeadersEntered) :
    m.mergedFlow.Carried m.mergedFlow.Settled := by
  apply Graph.carried_settled
  intro i t f he l
  exact h.reached i (CodeMethod.MergedEdge.edge he).lt l

end Transfer

end TraceJvm
