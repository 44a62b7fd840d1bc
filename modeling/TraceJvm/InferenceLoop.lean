import TraceJvm.AnalysisAcceptance
import TraceJvm.InferenceFlow
import Mathlib.Algebra.Order.BigOperators.Group.Finset

/-! The refinement loop of a method that the verifier by inference accepts. Its passes fail nowhere
but at a leader that no code before it enters, and each repeated one loses a kind for good. -/
namespace TraceJvm
open Outcome ValueFlow List

/-- Every kind that the first list has is the one that the second has there. -/
def Within (a b : List TypeKind) : Prop := ∀ (j : ℕ) k, k ≠ .void → a[j]? = some k → b[j]? = some k

/-- The kinds claimed of the local slots stand at their new numbers. -/
def Knows (swizzle : List ℕ) (ls : List TypeKind) (claim : ℕ → TypeKind → Prop) : Prop :=
  ∀ l j k, swizzle[l]? = some j → claim l k → ls[j]? = some k

/-- What telling the targets `ts` about the current state can do. -/
inductive AnalysisCtx.Meets (ts : List ℕ) (c : AnalysisCtx) : AnalysisCtx → Prop where
  | refl : Meets ts c c
  | edges {c' : AnalysisCtx} (h : Meets ts c c') (es : List (ℕ × ℕ)) :
      Meets ts c { c' with edges := es }
  | stack {c' : AnalysisCtx} {t : ℕ} (h : Meets ts c c') (ht : t ∈ ts) :
      Meets ts c (c'.intersectStack t c'.stack)
  | locals {c' : AnalysisCtx} {t : ℕ} (h : Meets ts c c') (ht : t ∈ ts) :
      Meets ts c (c'.intersectLocals t)

/-- The recorded kinds that are not lost yet; nothing recorded counts as more than any state. -/
def weight (bound : ℕ) : Option (List TypeKind) → ℕ
  | none => bound
  | some ls => (ls.filter (· ≠ .void)).length

/-- What the passes can still lose about the first `n` instructions. -/
def AnalysisCtx.potential (n bound : ℕ) (c : AnalysisCtx) : ℕ :=
  (∑ t ∈ Finset.range n, weight bound (c.knownStacks t)) +
    (∑ t ∈ Finset.range n, weight bound (c.knownLocals t)) + c.changed.toNat

section Meets

variable {ts : List ℕ} {c c' : AnalysisCtx}

theorem AnalysisCtx.Meets.trans {c'' : AnalysisCtx} (h : c.Meets ts c') (k : c'.Meets ts c'') :
    c.Meets ts c'' := by
  induction k with
  | refl => exact h
  | edges _ es ih => exact ih.edges es
  | stack _ ht ih => exact ih.stack ht
  | locals _ ht ih => exact ih.locals ht

theorem AnalysisCtx.Meets.current (h : c.Meets ts c') :
    c'.stack = c.stack ∧ c'.locals = c.locals := by
  induction h with
  | refl => exact ⟨rfl, rfl⟩
  | edges _ es ih => exact ih
  | stack _ ht ih => exact ih
  | locals _ ht ih => exact ih

variable {src : List TypeKind}

theorem getElem?_intersect {d : List TypeKind} {j : ℕ} :
    (intersectState (some d) src).1[j]? = (d[j]?).bind fun a =>
      (src[j]?).map fun b => if a ≠ b ∧ a ≠ .void then .void else a := by
  rw [intersectState, getElem?_zipWith]
  cases d[j]? with
  | none => rfl
  | some a =>
    cases src[j]? with
    | none => rfl
    | some b => rfl

theorem within_intersect (dst : Option (List TypeKind)) (src : List TypeKind) :
    Within (intersectState dst src).1 src ∧
      ∀ d, dst = some d → Within (intersectState dst src).1 d := by
  cases dst with
  | none => exact ⟨fun j k _ h => h, nofun⟩
  | some d =>
    have hboth : ∀ (j : ℕ) k, k ≠ .void → (intersectState (some d) src).1[j]? = some k →
        d[j]? = some k ∧ src[j]? = some k := by
      intro j k hv h
      rw [getElem?_intersect] at h
      obtain ⟨a, ha, h⟩ := Option.bind_eq_some_iff.mp h
      obtain ⟨b, hb, h⟩ := Option.map_eq_some_iff.mp h
      split at h
      · exact absurd h.symm hv
      · rename_i hsame
        subst h
        rw [not_and_or, not_not, not_not] at hsame
        exact ⟨ha, hb.trans (congrArg some (hsame.resolve_right hv).symm)⟩
    refine ⟨fun j k hv h => (hboth j k hv h).2, ?_⟩
    intro _ hd j k hv h
    cases hd
    exact (hboth j k hv h).1

variable {dst : Option (List TypeKind)}

theorem Knows.intersect {swizzle : List ℕ} {claim : ℕ → TypeKind → Prop}
    (hsrc : Knows swizzle src claim) (hdst : ∀ d, dst = some d → Knows swizzle d claim) :
    Knows swizzle (intersectState dst src).1 claim := by
  cases dst with
  | none => exact hsrc
  | some d =>
    intro l j k hj hclaim
    rw [getElem?_intersect, hdst d rfl l j k hj hclaim, hsrc l j k hj hclaim]
    simp

theorem intersectLocals_self (t : ℕ) : (c.intersectLocals t).knownLocals t =
    some (intersectState (c.knownLocals t) c.locals).1 := Function.update_self ..

variable {t : ℕ}

theorem intersectLocals_of_ne {u : ℕ} (h : t ≠ u) :
    (c.intersectLocals u).knownLocals t = c.knownLocals t := Function.update_of_ne h _ _

theorem intersectLocals_changed (t : ℕ) : (c.intersectLocals t).changed =
    (c.changed || (intersectState (c.knownLocals t) c.locals).2) := rfl

theorem intersectStack_self (t : ℕ) (st : List TypeKind) :
    (c.intersectStack t st).knownStacks t =
      some (intersectState (c.knownStacks t) st.reverse).1 := Function.update_self ..

theorem intersectStack_of_ne {u : ℕ} {st : List TypeKind} (h : t ≠ u) :
    (c.intersectStack u st).knownStacks t = c.knownStacks t := Function.update_of_ne h _ _

theorem intersectStack_changed (t : ℕ) (st : List TypeKind) : (c.intersectStack t st).changed =
    (c.changed || (intersectState (c.knownStacks t) st.reverse).2) := rfl

theorem AnalysisCtx.Meets.isSome (h : c.Meets ts c') (t : ℕ) :
    ((c.knownStacks t).isSome → (c'.knownStacks t).isSome) ∧
      ((c.knownLocals t).isSome → (c'.knownLocals t).isSome) := by
  induction h with
  | refl => exact ⟨id, id⟩
  | edges _ es ih => exact ih
  | @stack _ u _ ht ih =>
    refine ⟨fun hk => ?_, ih.2⟩
    by_cases htu : t = u
    · subst htu
      rw [intersectStack_self]
      rfl
    · rw [intersectStack_of_ne htu]
      exact ih.1 hk
  | @locals _ u _ ht ih =>
    refine ⟨ih.1, fun hk => ?_⟩
    by_cases htu : t = u
    · subst htu
      rw [intersectLocals_self]
      rfl
    · rw [intersectLocals_of_ne htu]
      exact ih.2 hk

theorem AnalysisCtx.Meets.told {ls : List TypeKind} (h : c.Meets ts c')
    (ht : ∃ d, c.knownLocals t = some d ∧ Within d ls) :
    ∃ d, c'.knownLocals t = some d ∧ Within d ls := by
  induction h with
  | refl => exact ht
  | edges _ es ih => exact ih
  | stack _ _ ih => exact ih
  | @locals c₁ u _ _ ih =>
    obtain ⟨d, hd, hwithin⟩ := ih
    by_cases htu : t = u
    · subst htu
      refine ⟨_, intersectLocals_self t, fun j k hv hk => ?_⟩
      exact hwithin j k hv ((within_intersect _ _).2 d hd j k hv hk)
    · exact ⟨d, (intersectLocals_of_ne htu).trans hd, hwithin⟩

theorem AnalysisCtx.Meets.claims {swizzle : List ℕ} {claim : ℕ → ℕ → TypeKind → Prop}
    {Q : ℕ → Prop} (h : c.Meets ts c')
    (hcurrent : ∀ t ∈ ts, Q t → Knows swizzle c.locals (claim t))
    (hknown : ∀ t ls, Q t → c.knownLocals t = some ls → Knows swizzle ls (claim t)) :
    ∀ t ls, Q t → c'.knownLocals t = some ls → Knows swizzle ls (claim t) := by
  induction h with
  | refl => exact hknown
  | edges _ es ih => exact ih
  | stack _ _ ih => exact ih
  | @locals c₁ u hmeets hu ih =>
    intro t ls hq hls
    by_cases htu : t = u
    · subst htu
      rw [intersectLocals_self] at hls
      cases hls
      rw [hmeets.current.2]
      exact (hcurrent t hu hq).intersect fun d hd => ih t d hq hd
    · rw [intersectLocals_of_ne htu] at hls
      exact ih t ls hq hls

/-- A kind that is lost is one kind less. -/
theorem weight_intersect {bound : ℕ} (h : src.length < bound) :
    weight bound (some (intersectState dst src).1) + (intersectState dst src).2.toNat ≤
      weight bound dst := by
  cases dst with
  | none =>
    have hle : (src.filter (· ≠ .void)).length ≤ src.length := length_filter_le _ src
    simp only [weight, intersectState, Bool.toNat_true]
    omega
  | some d =>
    simp only [weight, intersectState]
    clear h
    induction d generalizing src with
    | nil => simp
    | cons a d ih =>
      cases src with
      | nil => simp
      | cons b src =>
        have hrest := @ih src
        rw [zipWith_cons_cons, zip_cons_cons, any_cons]
        by_cases hlost : a ≠ b ∧ a ≠ .void
        · have hle : ((d.zip src).any fun p => p.1 ≠ p.2 ∧ p.1 ≠ .void).toNat ≤ 1 := Bool.toNat_le _
          rw [if_pos hlost]
          simp only [hlost, ne_eq, not_false_eq_true, and_self, decide_true, Bool.true_or,
            Bool.toNat_true, not_true_eq_false, decide_false, Bool.false_eq_true,
            filter_cons_of_neg, filter_cons_of_pos, length_cons]
          simp only [ne_eq] at hrest
          omega
        · rw [if_neg hlost]
          simp only [hlost, decide_false, Bool.false_or]
          by_cases hv : a = .void
          · subst hv
            simpa using hrest
          · simp only [ne_eq, hv, not_false_eq_true, decide_true, filter_cons_of_pos, length_cons]
            simp only [ne_eq] at hrest
            omega

theorem sum_range_change {n a : ℕ} {f g : ℕ → ℕ} (ht : t < n) (hother : ∀ u, u ≠ t → g u = f u)
    (h : g t + a ≤ f t) : (∑ u ∈ Finset.range n, g u) + a ≤ ∑ u ∈ Finset.range n, f u := by
  have hmem : t ∈ Finset.range n := Finset.mem_range.mpr ht
  have hrest : ∑ u ∈ (Finset.range n).erase t, g u = ∑ u ∈ (Finset.range n).erase t, f u :=
    Finset.sum_congr rfl fun u hu => hother u (Finset.ne_of_mem_erase hu)
  rw [← Finset.add_sum_erase _ g hmem, ← Finset.add_sum_erase _ f hmem, hrest]
  omega

/-- No pass gains anything, and what it loses for the first time it marks. -/
theorem AnalysisCtx.Meets.potential_le {n bound : ℕ} (h : c.Meets ts c')
    (ht : ∀ t ∈ ts, t < n ∧ c.stack.length < bound) (hlocals : c.locals.length < bound) :
    c'.potential n bound ≤ c.potential n bound := by
  have hor : ∀ a b : Bool, (a || b).toNat ≤ a.toNat + b.toNat := by decide
  induction h with
  | refl => exact Nat.le_refl _
  | edges _ es ih => exact ih
  | @stack c₁ t hmeets htu ih =>
    have hlen : c₁.stack.reverse.length < bound := by
      rw [length_reverse, hmeets.current.1]
      exact (ht t htu).2
    have hlost := hor c₁.changed (intersectState (c₁.knownStacks t) c₁.stack.reverse).2
    have hsum := sum_range_change (f := fun u => weight bound (c₁.knownStacks u))
      (g := fun u => weight bound ((c₁.intersectStack t c₁.stack).knownStacks u)) (ht t htu).1
      (fun u hu => congrArg (weight bound) (intersectStack_of_ne hu)) (by
        show weight bound ((c₁.intersectStack t c₁.stack).knownStacks t) + _ ≤ _
        rw [intersectStack_self]
        exact weight_intersect hlen)
    refine Nat.le_trans ?_ ih
    unfold AnalysisCtx.potential
    rw [show (c₁.intersectStack t c₁.stack).knownLocals = c₁.knownLocals from rfl,
      intersectStack_changed]
    omega
  | @locals c₁ t hmeets htu ih =>
    have hlen : c₁.locals.length < bound := by
      rw [hmeets.current.2]
      exact hlocals
    have hlost := hor c₁.changed (intersectState (c₁.knownLocals t) c₁.locals).2
    have hsum := sum_range_change (f := fun u => weight bound (c₁.knownLocals u))
      (g := fun u => weight bound ((c₁.intersectLocals t).knownLocals u)) (ht t htu).1
      (fun u hu => congrArg (weight bound) (intersectLocals_of_ne hu)) (by
        show weight bound ((c₁.intersectLocals t).knownLocals t) + _ ≤ _
        rw [intersectLocals_self]
        exact weight_intersect hlen)
    refine Nat.le_trans ?_ ih
    unfold AnalysisCtx.potential
    rw [show (c₁.intersectLocals t).knownStacks = c₁.knownStacks from rfl, intersectLocals_changed]
    omega

variable {curr : ℕ}

theorem pushBranchTarget_meets {us : List ℕ} (ht : t ∈ us) :
    c.Meets us (c.pushBranchTarget true curr t) := by
  have hedge : c.Meets us { c with edges := c.edges ++ [(curr, t)] } :=
    AnalysisCtx.Meets.refl.edges _
  exact (hedge.stack ht).locals ht

theorem pushBranchTargets_meets {us : List ℕ} (hsub : ∀ t ∈ ts, t ∈ us) :
    c.Meets us (ts.foldl (AnalysisCtx.pushBranchTarget true curr) c) := by
  induction ts generalizing c with
  | nil => exact .refl
  | cons t ts ih =>
    rw [foldl_cons]
    exact (pushBranchTarget_meets (hsub t mem_cons_self)).trans
      (ih fun u hu => hsub u (mem_cons_of_mem _ hu))

/-- Every target of a branch has been told about the current state. -/
theorem pushBranchTargets_told (ht : t ∈ ts) :
    ((ts.foldl (AnalysisCtx.pushBranchTarget true curr) c).knownStacks t).isSome ∧
      ∃ d, (ts.foldl (AnalysisCtx.pushBranchTarget true curr) c).knownLocals t = some d ∧
        Within d c.locals := by
  induction ts generalizing c with
  | nil => cases ht
  | cons u ts ih =>
    rw [foldl_cons]
    have hone : (c.pushBranchTarget true curr u).locals = c.locals := rfl
    rcases mem_cons.mp ht with rfl | ht
    · have hrest : (c.pushBranchTarget true curr t).Meets ts
          (ts.foldl (AnalysisCtx.pushBranchTarget true curr) (c.pushBranchTarget true curr t)) :=
        pushBranchTargets_meets fun _ hu => hu
      constructor
      · apply (hrest.isSome t).1
        show ((AnalysisCtx.intersectStack { c with edges := c.edges ++ [(curr, t)] } t
          c.stack).knownStacks t).isSome
        rw [intersectStack_self]
        rfl
      · exact hrest.told ⟨_, intersectLocals_self t, (within_intersect _ _).1⟩
    · rw [← hone]
      exact ih ht

theorem intersectExceptionHandlers_meets {env : AnalysisEnv} {i : ℕ}
    (hsub : ∀ e ∈ env.exceptionTable, e.covers i → e.handlerInsn ∈ ts) :
    c.Meets ts (c.intersectExceptionHandlers env i) := by
  unfold AnalysisCtx.intersectExceptionHandlers
  generalize env.exceptionTable = es at hsub
  induction es generalizing c with
  | nil => exact .refl
  | cons e es ih =>
    rw [foldl_cons]
    refine AnalysisCtx.Meets.trans ?_ (ih fun e' he' => hsub e' (mem_cons_of_mem _ he'))
    split
    · rename_i hcov
      exact AnalysisCtx.Meets.refl.locals (hsub e mem_cons_self hcov)
    · exact .refl

/-- Every handler of the instruction has been told about the state before it. -/
theorem intersectExceptionHandlers_told {env : AnalysisEnv} {i : ℕ} {e : ExceptionEntry}
    (he : e ∈ env.exceptionTable) (hcov : e.covers i) :
    ∃ d, (c.intersectExceptionHandlers env i).knownLocals e.handlerInsn = some d ∧
      Within d c.locals := by
  unfold AnalysisCtx.intersectExceptionHandlers
  generalize env.exceptionTable = es at he
  induction es generalizing c with
  | nil => cases he
  | cons e' es ih =>
    rw [foldl_cons]
    rcases mem_cons.mp he with rfl | he
    · have hrest : (c.intersectLocals e.handlerInsn).Meets (es.map ExceptionEntry.handlerInsn)
          (AnalysisCtx.intersectExceptionHandlers { env with exceptionTable := es } i
            (c.intersectLocals e.handlerInsn)) :=
        intersectExceptionHandlers_meets fun e' he' _ => mem_map_of_mem he'
      rw [if_pos hcov]
      exact hrest.told ⟨_, intersectLocals_self _, (within_intersect _ _).1⟩
    · have hone : (if e'.covers i then c.intersectLocals e'.handlerInsn else c).locals =
          c.locals := by
        split <;> rfl
      rw [← hone]
      exact ih he

end Meets

section Step

variable {m : CodeMethod} {T : ℕ → Option KindFrame} {swizzle : List ℕ}

def CodeMethod.handlersAt (m : CodeMethod) (i : ℕ) : List ℕ :=
  (m.exceptionTable.filter fun e => e.covers i).map ExceptionEntry.handlerInsn

theorem CodeMethod.mem_handlersAt {i t : ℕ} : t ∈ m.handlersAt i ↔
    ∃ e ∈ m.exceptionTable, e.covers i = true ∧ e.handlerInsn = t := by
  simp only [CodeMethod.handlersAt, mem_map, mem_filter, and_assoc]

def CodeMethod.ToldOnArrival (m : CodeMethod) (i : ℕ) (s : PassState) (t : ℕ) : Prop :=
  0 < i ∧ (t = i ∧ s.terminated = false ∨
    ∃ e ∈ m.exceptionTable, e.covers i = true ∧ e.handlerInsn = t)

structure ArriveRecord (m : CodeMethod) (swizzle : List ℕ) (i : ℕ) (s s₁ : PassState) :
    Prop where
  first : i = 0 → ∀ l j : ℕ, swizzle[l]? = some j →
    s₁.ctx.locals[j]? = some (m.flow.initial l)
  recovered : 0 < i → s.terminated = true → s.ctx.knownStacks i = some s₁.ctx.stack.reverse ∧
    s.ctx.knownLocals i = some s₁.ctx.locals
  carried : 0 < i → s.terminated = false → s₁.ctx.locals = s.ctx.locals
  handlers : 0 < i → ∀ e ∈ m.exceptionTable, e.covers i →
    ∃ d, s₁.ctx.knownLocals e.handlerInsn = some d ∧ Within d s₁.ctx.locals
  meets : ∃ ts, (∀ t ∈ ts, m.ToldOnArrival i s t) ∧ AnalysisCtx.Meets ts
    { s.ctx with stack := s₁.ctx.stack, locals := s₁.ctx.locals } s₁.ctx
  length : s₁.ctx.locals.length = m.maxLocals

/-- What a step of the loop does that arrives in `s₁`. -/
structure StepRecord (m : CodeMethod) (swizzle : List ℕ) (i : ℕ) (insn : Instruction)
    (s s₁ s₂ : PassState) : Prop extends ArriveRecord m swizzle i s s₁ where
  states : s₂.states = s.states ++ [⟨s₁.ctx.stack, s₁.ctx.locals⟩]
  behind : ∀ l j : ℕ, swizzle[l]? = some j →
    s₂.ctx.locals[j]? = (s₁.ctx.locals[j]?).map (insn.writes l)
  terminated : s₂.terminated = insn.kind.terminates
  branches : ∀ t ∈ insn.branchTargets, (s₂.ctx.knownStacks t).isSome ∧
    ∃ d, s₂.ctx.knownLocals t = some d ∧ Within d s₂.ctx.locals
  told : AnalysisCtx.Meets insn.branchTargets
    { s₁.ctx with stack := s₂.ctx.stack, locals := s₂.ctx.locals } s₂.ctx
  analyzed : ∃ fin insn₂ insn', insn.SameOp insn₂ ∧
    analyzeInstruction (m.analysisEnv swizzle) fin i insn₂ s₁.ctx = .ok (s₂.ctx, insn')
  iter : s₂.iter = s₁.iter

theorem intersectExceptionHandlers_current {env : AnalysisEnv} {i : ℕ} {c : AnalysisCtx} :
    (c.intersectExceptionHandlers env i).stack = c.stack ∧
      (c.intersectExceptionHandlers env i).locals = c.locals := by
  have hmeets : c.Meets (env.exceptionTable.map ExceptionEntry.handlerInsn)
      (c.intersectExceptionHandlers env i) :=
    intersectExceptionHandlers_meets fun e he _ => mem_map_of_mem he
  exact hmeets.current

theorem initIterator_entry {it : FrameIterator} (hsmt : m.missingSmt = true)
    (h : m.initIterator = .ok it) (l : ℕ) :
    (KindFrame.ofIterator it).locals l = m.flow.initial l := by
  simp only [CodeMethod.initIterator, m.missing_eq hsmt, Option.getD_none, head?_nil,
    reduceCtorEq, if_false, Option.isSome_none, Except.ok.injEq] at h
  subst h
  show ((m.initLocals[l]?).map _).getD _ = (((localSlots m.entryLocals)[l]?).map _).getD _
  rw [initLocals_eq]

theorem arrive_record {i : ℕ} {insn insn₂ : Instruction} {s s₁ : PassState}
    (hsmt : m.missingSmt = true) (hz : Swizzles m.maxLocals swizzle)
    (hit : m.initIterator = .ok s.iter) (hlen : s.ctx.locals.length = m.maxLocals)
    (hknown : ∀ t ls, s.ctx.knownLocals t = some ls → ls.length = m.maxLocals)
    (hi : m.code[i]? = some insn) (hop : insn.SameOp insn₂)
    (h : s.arrive (m.analysisEnv swizzle) i insn₂ = .ok s₁) : ArriveRecord m swizzle i s s₁ := by
  obtain ⟨hpc, hnext, -⟩ := initIterator_missing hsmt hit
  have hzero : insn₂.originalPc = s.iter.pc ↔ i = 0 := by
    rw [hop.originalPc_eq, hpc]
    exact CodeMethod.originalPc_eq_zero hi
  cases arrivesBy_of_arrive h with
  | frame hat =>
    obtain rfl := hzero.mp hat
    constructor
    · intro _ l j hj
      have hexact : FrameExact (m.analysisEnv swizzle).swizzle
          (s.ctx.useStackMapFrame (m.analysisEnv swizzle) s.iter) (.ofIterator s.iter) :=
        (useStackMapFrame_ofIterator hz hlen).1
      rw [← initIterator_entry hsmt hit]
      exact hexact.locals l j hj
    iterate 3 exact fun hpos => absurd hpos (by omega)
    · exact ⟨[], fun t ht => absurd ht not_mem_nil, .refl⟩
    · exact (useStackMapFrame_ofIterator hz hlen).2
  | @known st ls hne _ hterm hst hls =>
    have hpos : 0 < i := Nat.pos_of_ne_zero fun h0 => hne (hzero.mpr h0)
    constructor
    · exact fun h0 => absurd h0 (by omega)
    · intro _ _
      dsimp only
      rw [intersectExceptionHandlers_current.1, intersectExceptionHandlers_current.2]
      exact ⟨by rw [hst, reverse_reverse], hls⟩
    · intro _ hcont
      rw [hterm] at hcont
      cases hcont
    · intro _ e he hcov
      dsimp only
      rw [intersectExceptionHandlers_current.2]
      exact intersectExceptionHandlers_told he hcov
    · refine ⟨m.handlersAt i, fun t ht => ⟨hpos, .inr (CodeMethod.mem_handlersAt.mp ht)⟩, ?_⟩
      dsimp only
      rw [intersectExceptionHandlers_current.1, intersectExceptionHandlers_current.2]
      exact intersectExceptionHandlers_meets fun e he hcov =>
        CodeMethod.mem_handlersAt.mpr ⟨e, he, hcov, rfl⟩
    · dsimp only
      rw [intersectExceptionHandlers_current.2]
      exact hknown i ls hls
  | merged hne _ hterm =>
    have hpos : 0 < i := Nat.pos_of_ne_zero fun h0 => hne (hzero.mpr h0)
    constructor
    · exact fun h0 => absurd h0 (by omega)
    · intro _ hends
      rw [hterm] at hends
      cases hends
    · intro _ _
      exact intersectExceptionHandlers_current.2
    · intro _ e he hcov
      dsimp only
      rw [intersectExceptionHandlers_current.2]
      exact intersectExceptionHandlers_told he hcov
    · refine ⟨i :: m.handlersAt i, ?_, ?_⟩
      · intro t ht
        rcases mem_cons.mp ht with rfl | ht
        · exact ⟨hpos, .inl ⟨rfl, hterm⟩⟩
        · exact ⟨hpos, .inr (CodeMethod.mem_handlersAt.mp ht)⟩
      · dsimp only
        rw [intersectExceptionHandlers_current.1, intersectExceptionHandlers_current.2]
        have hstack : s.ctx.Meets (i :: m.handlersAt i) (s.ctx.intersectStack i s.ctx.stack) :=
          AnalysisCtx.Meets.refl.stack mem_cons_self
        exact (hstack.locals mem_cons_self).trans (intersectExceptionHandlers_meets
          fun e he hcov =>
            mem_cons_of_mem _ (CodeMethod.mem_handlersAt.mpr ⟨e, he, hcov, rfl⟩))
    · exact (congrArg List.length intersectExceptionHandlers_current.2).trans hlen
  | carried hne hsmt' =>
    rw [show (m.analysisEnv swizzle).missingSmt = true from hsmt] at hsmt'
    cases hsmt'

theorem step_record {i : ℕ} {fin : Bool} {insn insn₂ : Instruction} {s s₂ : PassState}
    (hsmt : m.missingSmt = true) (hz : Swizzles m.maxLocals swizzle)
    (hit : m.initIterator = .ok s.iter) (hlen : s.ctx.locals.length = m.maxLocals)
    (hknown : ∀ t ls, s.ctx.knownLocals t = some ls → ls.length = m.maxLocals)
    (hi : m.code[i]? = some insn) (hop : insn.SameOp insn₂)
    (h : s.step (m.analysisEnv swizzle) fin i insn₂ = .ok s₂) :
    ∃ s₁, s.arrive (m.analysisEnv swizzle) i insn₂ = .ok s₁ ∧
      StepRecord m swizzle i insn s s₁ s₂ := by
  obtain ⟨s₁, c, insn', hs₁, hana, rfl⟩ := step_eq_ok h
  have harr := arrive_record hsmt hz hit hlen hknown hi hop hs₁
  obtain ⟨before, after, insn₁, -, -, hinsn, -⟩ := analyzeInstruction_analyzed hana
  have hwrites : Instruction.writes { insn₂ with tosBefore := before } = insn.writes := by
    obtain ⟨_, _, _, rfl⟩ := hop
    rfl
  have heq := analyzeInstruction_targets hana
  rw [hop.branchTargets_eq, show (m.analysisEnv swizzle).missingSmt = true from hsmt] at heq
  refine ⟨s₁, hs₁, harr, ?_, ?_, ?_, ?_, ?_, ?_, ?_⟩
  · show s₁.states ++ _ = _
    rw [(arrive_recorded hs₁).1]
  · intro l j hj
    rw [← hwrites]
    exact hinsn.writes hz harr.length hj
  · exact congrArg InsnKind.terminates hop.kind_eq
  · intro t ht
    have hdone : ∀ c₁, c = insn.branchTargets.foldl (AnalysisCtx.pushBranchTarget true i) c₁ →
        c₁.locals = c.locals → (c.knownStacks t).isSome ∧
          ∃ d, c.knownLocals t = some d ∧ Within d c.locals := by
      intro c₁ hc₁ hsame
      rw [← hsame, hc₁]
      exact pushBranchTargets_told ht
    exact hdone _ heq rfl
  · show AnalysisCtx.Meets _ _ c
    conv_rhs => rw [heq]
    exact pushBranchTargets_meets fun _ ht => ht
  · exact ⟨fin, insn₂, insn', hop, hana⟩
  · rfl

/-- What holds before instruction `i` of a pass: claims that agree with the merged edges hold of
what is known, and the ends of the edges from before are known. -/
structure LoopInv (m : CodeMethod) (T : ℕ → Option KindFrame) (swizzle : List ℕ) (i : ℕ)
    (s : PassState) : Prop where
  typed : PassInv m T i s
  iter : m.initIterator = .ok s.iter
  ended : 0 < i → (s.terminated = true ↔ m.Leader i)
  claims : ∀ P, m.mergedFlow.Carried P → ∀ t ls, m.Leader t → s.ctx.knownLocals t = some ls →
    Knows swizzle ls (P t)
  carried : ∀ P, m.mergedFlow.Carried P → 0 < i → s.terminated = false →
    Knows swizzle s.ctx.locals (P i)
  met : ∀ j t f, j < i → m.MergedEdge j t f → m.Leader t →
    (s.ctx.knownStacks t).isSome ∧ (s.ctx.knownLocals t).isSome
  handlers : ∀ e ∈ m.exceptionTable, (s.ctx.knownStacks e.handlerInsn).isSome

variable {i : ℕ} {insn insn₂ : Instruction} {s s₁ s₂ : PassState} {fin : Bool}

theorem LoopInv.arrives (h : LoopInv m T swizzle i s) (harr : ArriveRecord m swizzle i s s₁)
    {P : ℕ → ℕ → TypeKind → Prop} (hP : m.mergedFlow.Carried P) :
    Knows swizzle s₁.ctx.locals (P i) := by
  rcases Nat.eq_zero_or_pos i with rfl | hpos
  · intro l j k hj hclaim
    rw [harr.first rfl l j hj]
    exact congrArg some (hP.start l k hclaim)
  · cases hterm : s.terminated with
    | true =>
      exact h.claims P hP i _ ((h.ended hpos).mp hterm) (harr.recovered hpos hterm).2
    | false =>
      rw [harr.carried hpos hterm]
      exact h.carried P hP hpos hterm

theorem StepRecord.knows (hr : StepRecord m swizzle i insn s s₁ s₂)
    (hz : Swizzles m.maxLocals swizzle) {P : ℕ → ℕ → TypeKind → Prop}
    (hbefore : Knows swizzle s₁.ctx.locals (P i)) {t : ℕ}
    (hedge : ∀ l k, P t l k → (∀ x, insn.writes l x = k) ∨ P i l k ∧ insn.writes l k = k) :
    Knows swizzle s₂.ctx.locals (P t) := by
  intro l j k hj hclaim
  rw [hr.behind l j hj]
  rcases hedge l k hclaim with hwritten | ⟨hclaim, hkept⟩
  · have hlt : j < s₁.ctx.locals.length := hr.length ▸ (hz.get_lt hj).2
    rw [getElem?_eq_getElem hlt]
    exact congrArg some (hwritten _)
  · rw [hbefore l j k hj hclaim]
    exact congrArg some hkept

theorem LoopInv.record (h : LoopInv m T swizzle i s) (hsmt : m.missingSmt = true)
    (hz : Swizzles m.maxLocals swizzle) (hi : m.code[i]? = some insn) (hop : insn.SameOp insn₂)
    (hstep : s.step (m.analysisEnv swizzle) fin i insn₂ = .ok s₂) :
    ∃ s₁, s.arrive (m.analysisEnv swizzle) i insn₂ = .ok s₁ ∧ StepRecord m swizzle i insn s s₁ s₂ :=
  step_record hsmt hz h.iter h.typed.known.locals h.typed.known.lengths hi hop hstep

theorem LoopInv.typed_step (h : LoopInv m T swizzle i s) (ht : InferredTyping m T)
    (hsmt : m.missingSmt = true) (hi : m.code[i]? = some insn) (hop : insn.SameOp insn₂)
    (hs₁ : s.arrive (m.analysisEnv swizzle) i insn₂ = .ok s₁)
    (hr : StepRecord m swizzle i insn s s₁ s₂) :
    PassInv m T (i + 1) s₂ ∧ (∃ f, T i = some f ∧ s₁.ctx.stack = f.stack) ∧
      s₁.iter = s.iter := by
  obtain ⟨⟨f, hf, hstack⟩, hknown, hiter, -⟩ := arrive_typed ht hsmt hi hop h.typed hs₁
  obtain ⟨fin, insn₃, insn', hop₃, hana⟩ := hr.analyzed
  obtain ⟨hknown', -, hnext⟩ := analyzeInstruction_inferred ht hi hop₃ hf hstack hknown hana
  refine ⟨⟨hknown', ?_, fun _ hterm => hnext ?_⟩, ⟨f, hf, hstack⟩, hiter⟩
  · rw [hr.iter, hiter]
    exact h.typed.start
  · rw [← hr.terminated]
    exact hterm

theorem LoopInv.step (h : LoopInv m T swizzle i s) (ht : InferredTyping m T)
    (hsmt : m.missingSmt = true) (hz : Swizzles m.maxLocals swizzle)
    (hi : m.code[i]? = some insn) (hop : insn.SameOp insn₂)
    (hs₁ : s.arrive (m.analysisEnv swizzle) i insn₂ = .ok s₁)
    (hr : StepRecord m swizzle i insn s s₁ s₂) : LoopInv m T swizzle (i + 1) s₂ := by
  obtain ⟨htyped, -, hiter⟩ := h.typed_step ht hsmt hi hop hs₁ hr
  obtain ⟨ts, htold, hmeets⟩ := hr.meets
  have hsome : ∀ t, ((s.ctx.knownStacks t).isSome → (s₂.ctx.knownStacks t).isSome) ∧
      ((s.ctx.knownLocals t).isSome → (s₂.ctx.knownLocals t).isSome) := fun t =>
    ⟨fun hk => (hr.told.isSome t).1 ((hmeets.isSome t).1 hk),
      fun hk => (hr.told.isSome t).2 ((hmeets.isSome t).2 hk)⟩
  have hleader : m.Leader (i + 1) ↔ insn.kind.terminates = true := by
    constructor
    · rintro ⟨-, p, hp, hterm⟩
      rw [Nat.add_sub_cancel] at hp
      cases hi.symm.trans hp
      exact hterm
    · intro hterm
      exact ⟨Nat.succ_pos i, insn, hi, hterm⟩
  constructor
  · exact htyped
  · rw [hr.iter, hiter]
    exact h.iter
  · intro _
    rw [hr.terminated, hleader]
  · intro P hP
    have hbefore := h.arrives hr.toArriveRecord hP
    -- A leader is not told on arrival as the instruction itself.
    have harrival : ∀ t ∈ ts, m.Leader t → Knows swizzle s₁.ctx.locals (P t) := by
      intro t hmem hlead l j k hj hclaim
      obtain ⟨hpos, ⟨rfl, hcont⟩ | ⟨e, he, hcov, rfl⟩⟩ := htold t hmem
      · rw [(h.ended hpos).mpr hlead] at hcont
        cases hcont
      · rcases hP.edge _ _ _ (.handler hi he hcov hpos hlead) l k hclaim with hany | ⟨hclaim, -⟩
        · have hboth : TypeKind.void = TypeKind.int := (hany .void).trans (hany .int).symm
          cases hboth
        · exact hbefore l j k hj hclaim
    refine hr.told.claims (fun t hmem hlead => ?_) (hmeets.claims harrival (h.claims P hP))
    exact hr.knows hz hbefore fun l k => hP.edge _ _ _ (.branch hi hmem hlead) l k
  · intro P hP _ hterm
    refine hr.knows hz (h.arrives hr.toArriveRecord hP) fun l k => ?_
    exact hP.edge _ _ _ (.next hi (hr.terminated ▸ hterm)) l k
  · intro j t f hj hedge hlead
    rcases Nat.lt_or_eq_of_le (Nat.le_of_lt_succ hj) with hj | rfl
    · obtain ⟨hst, hls⟩ := h.met j t f hj hedge hlead
      exact ⟨(hsome t).1 hst, (hsome t).2 hls⟩
    · cases hedge with
      | next hi' hcont =>
        cases hi.symm.trans hi'
        rw [hleader.mp hlead] at hcont
        cases hcont
      | branch hi' hmem =>
        cases hi.symm.trans hi'
        obtain ⟨hst, d, hd, -⟩ := hr.branches t hmem
        exact ⟨hst, Option.isSome_iff_exists.mpr ⟨d, hd⟩⟩
      | handler hi' he hcov hpos =>
        obtain ⟨d, hd, -⟩ := hr.handlers hpos _ he hcov
        exact ⟨(hsome _).1 (h.handlers _ he), (hr.told.isSome _).2 (by rw [hd]; rfl)⟩
  · intro e he
    exact (hsome _).1 (h.handlers e he)

theorem Typing.edge_lt (ht : Typing m T) {t : ℕ} {f : ℕ → TypeKind → TypeKind} {g : KindFrame}
    (hg : T i = some g) (he : m.Edge i t f) : t < m.code.length := by
  obtain ⟨d, hd⟩ := ht.edge_live hg he
  obtain ⟨insn, hinsn⟩ := ht.inside t d hd
  exact (List.getElem?_eq_some_iff.mp hinsn).1

theorem LoopInv.potential_le (h : LoopInv m T swizzle i s) (hv : InferenceVerified m T)
    (hi : m.code[i]? = some insn) (hop : insn.SameOp insn₂)
    (hs₁ : s.arrive (m.analysisEnv swizzle) i insn₂ = .ok s₁)
    (hr : StepRecord m swizzle i insn s s₁ s₂) :
    s₂.ctx.potential m.code.length (m.maxStack + m.maxLocals + 1) ≤
      s.ctx.potential m.code.length (m.maxStack + m.maxLocals + 1) := by
  obtain ⟨htyped, ⟨f, hf, hstack⟩, -⟩ :=
    h.typed_step hv.toInferredTyping hv.missing hi hop hs₁ hr
  obtain ⟨ts, htold, hmeets⟩ := hr.meets
  obtain ⟨fin, insn₃, insn', hop₃, hana⟩ := hr.analyzed
  obtain ⟨hlt, -⟩ := List.getElem?_eq_some_iff.mp hi
  obtain ⟨g, hg, hbranch, -⟩ := hv.step i insn f hi hf
  obtain ⟨before, after, insn₁, -, -, hinsn, -⟩ := analyzeInstruction_analyzed hana
  have hg₂ : typeStep (m.analysisEnv swizzle).maxLocals { insn₃ with tosBefore := before } f =
      some g := by
    obtain ⟨_, _, _, rfl⟩ := hop₃
    exact hg
  have hbehind := (hinsn.typed hg₂ hstack).1
  have hdepth := hv.depth i f hf
  have hlen := hr.length
  have hlen₂ : s₂.ctx.locals.length = m.maxLocals := htyped.known.locals
  have harrival : s₁.ctx.potential m.code.length (m.maxStack + m.maxLocals + 1) ≤
      s.ctx.potential m.code.length (m.maxStack + m.maxLocals + 1) := by
    refine hmeets.potential_le (fun t hmem => ⟨?_, ?_⟩) ?_
    · obtain ⟨hpos, ⟨rfl, -⟩ | ⟨e, he, hcov, rfl⟩⟩ := htold t hmem
      · exact hlt
      · exact hv.toTyping.edge_lt hf (.handler hi he hcov)
    · show s₁.ctx.stack.length < _
      rw [hstack]
      omega
    · show s₁.ctx.locals.length < _
      omega
  have hleave : s₂.ctx.potential m.code.length (m.maxStack + m.maxLocals + 1) ≤
      s₁.ctx.potential m.code.length (m.maxStack + m.maxLocals + 1) := by
    refine hr.told.potential_le (fun t hmem => ⟨?_, ?_⟩) ?_
    · exact hv.toTyping.edge_lt hf (.branch hi hmem)
    · obtain ⟨d, hd, hassign⟩ := hbranch t hmem
      have hfit := hv.depth t d hd
      rw [← hassign.stack_eq (hv.noVoid t d hd), ← hbehind] at hfit
      show s₂.ctx.stack.length < _
      omega
    · show s₂.ctx.locals.length < _
      omega
  exact hleave.trans harrival

theorem CodeMethod.LeadersEntered.typed (hlead : m.LeadersEntered) (ht : Typing m T) :
    m.mergedFlow.Carried (TypedLocal T) := by
  constructor
  · rintro l k ⟨f, hf, hv, hk⟩
    obtain ⟨f', hf', hassign⟩ := ht.entry
    cases hf.symm.trans hf'
    exact (hassign.local_eq (hk ▸ hv)).symm.trans hk
  · intro i t f he l k hclaim
    have hedge : m.Edge i t f := CodeMethod.MergedEdge.edge he
    obtain ⟨before, hbefore⟩ := hlead.live ht i hedge.lt
    exact ht.edge hbefore hedge hclaim

/-- Where every leader is entered from code before it, no step fails. -/
theorem LoopInv.progress (h : LoopInv m T swizzle i s) (hv : InferenceVerified m T)
    (hlead : m.LeadersEntered) (hz : Swizzles m.maxLocals swizzle) (hi : m.code[i]? = some insn)
    (hop : insn.SameOp insn₂) (fin : Bool) :
    ∃ s₂, s.step (m.analysisEnv swizzle) fin i insn₂ = .ok s₂ := by
  obtain ⟨hpc, hnext, -⟩ := h.typed.start
  have hsmt : (m.analysisEnv swizzle).missingSmt = true := hv.missing
  have harrive : ∃ s₁, s.arrive (m.analysisEnv swizzle) i insn₂ = .ok s₁ := by
    unfold PassState.arrive
    by_cases hat : insn₂.originalPc = s.iter.pc
    · rw [if_pos hat]
      simp only [hnext, Bool.false_eq_true, if_false]
      exact ⟨_, rfl⟩
    · rw [if_neg hat, if_pos hsmt]
      have hpos : 0 < i := by
        apply Nat.pos_of_ne_zero
        intro h0
        apply hat
        rw [hop.originalPc_eq, hpc]
        exact (CodeMethod.originalPc_eq_zero hi).mpr h0
      cases hterm : s.terminated with
      | false => exact ⟨_, rfl⟩
      | true =>
        have hleader := (h.ended hpos).mp hterm
        obtain ⟨j, f, hji, hedge⟩ := hlead i hleader (List.getElem?_eq_some_iff.mp hi).1
        obtain ⟨hst, hls⟩ := h.met j i f hji hedge hleader
        obtain ⟨st, hst⟩ := Option.isSome_iff_exists.mp hst
        obtain ⟨ls, hls⟩ := Option.isSome_iff_exists.mp hls
        simp only [if_true, hst, hls]
        exact ⟨_, rfl⟩
  obtain ⟨s₁, hs₁⟩ := harrive
  have harr := arrive_record hv.missing hz h.iter h.typed.known.locals h.typed.known.lengths hi hop
    hs₁
  obtain ⟨⟨f, hf, hstack⟩, -, -, -⟩ :=
    arrive_typed hv.toInferredTyping hv.missing hi hop h.typed hs₁
  obtain ⟨g, hg, -, hnext⟩ := hv.step i insn f hi hf
  have hag : AgreesLocals swizzle s₁.ctx.locals f.locals := by
    intro l j hj hk
    exact h.arrives harr (hlead.typed hv.toTyping) l j _ hj ⟨f, hf, hk, rfl⟩
  have hana : ∃ r, analyzeInstruction (m.analysisEnv swizzle) fin i insn₂ s₁.ctx = .ok r := by
    refine analyzeInstruction_ok hg hop hstack (hv.noVoid i f hf) hz hag (hv.depth i f hf) ?_
    intro hshuffle
    obtain ⟨-, -, -, hcont, -⟩ := loadKind_of_isShuffle hshuffle
    obtain ⟨d, hd, hassign⟩ := hnext hcont
    rw [hassign.stack_eq (hv.noVoid _ d hd)]
    exact hv.depth _ d hd
  obtain ⟨r, hr⟩ := hana
  rw [PassState.step, hs₁]
  show ∃ s₂, (analyzeInstruction _ fin i insn₂ s₁.ctx >>= _) = _
  rw [hr]
  exact ⟨_, rfl⟩

end Step

end TraceJvm
