import TraceJvm.InferenceLoop

/-! The states that the refinement loop records. The loop ends, and the recorded locals are the
strongest claims that agree with the merged edges; they are a post-fixpoint of the whole control
flow exactly where these agree with the missed edges as well. -/
namespace TraceJvm
open Outcome ValueFlow List

structure PassEntry (m : CodeMethod) (T : ℕ → Option KindFrame) (swizzle : List ℕ)
    (c : AnalysisCtx) : Prop where
  known : KnownOk m.maxLocals T c
  claims : ∀ P, m.mergedFlow.Carried P → ∀ t ls, m.Leader t → c.knownLocals t = some ls →
    Knows swizzle ls (P t)
  handlers : ∀ e ∈ m.exceptionTable, (c.knownStacks e.handlerInsn).isSome

section Passes

variable {m : CodeMethod} {T : ℕ → Option KindFrame} {swizzle : List ℕ} {c : AnalysisCtx}
  {code : List Instruction} {it : FrameIterator} {s s' : PassState} {fin : Bool}

theorem PassEntry.begin (h : PassEntry m T swizzle c) (hsmt : m.missingSmt = true)
    (hit : m.initIterator = .ok it) : LoopInv m T swizzle 0 ⟨c, it, true, [], []⟩ := by
  constructor
  · exact ⟨h.known, initIterator_missing hsmt hit, fun hpos => absurd hpos (Nat.lt_irrefl 0)⟩
  · exact hit
  · exact fun hpos => absurd hpos (Nat.lt_irrefl 0)
  · exact h.claims
  · exact fun P hP hpos => absurd hpos (Nat.lt_irrefl 0)
  · exact fun j t f hj => absurd hj (Nat.not_lt_zero j)
  · exact h.handlers

theorem LoopInv.restart {i : ℕ} (h : LoopInv m T swizzle i s) (b : Bool) :
    PassEntry m T swizzle { s.ctx with changed := b } :=
  ⟨⟨h.typed.known.stackOf, h.typed.known.live, h.typed.known.lengths, h.typed.known.locals⟩,
    h.claims, h.handlers⟩

/-- The part of a pass over the first instructions. -/
theorem LoopInv.take {i : ℕ} (h : LoopInv m T swizzle 0 s) (ht : InferredTyping m T)
    (hsmt : m.missingSmt = true) (hz : Swizzles m.maxLocals swizzle)
    (hcode : List.Forall₂ Instruction.SameOp m.code code) (hi : i ≤ m.code.length)
    (hpass : passFrom (m.analysisEnv swizzle) fin 0 (code.take i) s = .ok s') :
    LoopInv m T swizzle i s' ∧ s'.states.length = s.states.length + i ∧
      s'.code.length = s.code.length + i := by
  induction i generalizing s' with
  | zero =>
    rw [take_zero] at hpass
    cases hpass
    exact ⟨h, rfl, rfl⟩
  | succ i ih =>
    have hlt : i < code.length := hcode.length_eq ▸ hi
    have hget : code[i]? = some (code.get ⟨i, hlt⟩) := getElem?_eq_getElem hlt
    have hinsn : m.code[i]? = some (m.code.get ⟨i, hi⟩) := getElem?_eq_getElem hi
    have hop : (m.code.get ⟨i, hi⟩).SameOp (code.get ⟨i, hlt⟩) := hcode.get hi hlt
    obtain ⟨s₁, hs₁, hstep⟩ := passFrom_take_succ hget hpass
    obtain ⟨hinv, hstates, houts⟩ := ih (Nat.le_of_succ_le hi) hs₁
    obtain ⟨s₂, hs₂, hr⟩ := hinv.record hsmt hz hinsn hop hstep
    refine ⟨hinv.step ht hsmt hz hinsn hop hs₂ hr, ?_, ?_⟩
    · rw [hr.states, length_append, hstates]
      rfl
    · obtain ⟨s₃, c, insn', hs₃, -, rfl⟩ := step_eq_ok hstep
      show (s₃.code ++ [insn']).length = _
      rw [(arrive_recorded hs₃).2, length_append, houts]
      rfl

theorem LoopInv.pass (h : LoopInv m T swizzle 0 s) (ht : InferredTyping m T)
    (hsmt : m.missingSmt = true) (hz : Swizzles m.maxLocals swizzle)
    (hcode : List.Forall₂ Instruction.SameOp m.code code)
    (hpass : passFrom (m.analysisEnv swizzle) fin 0 code s = .ok s') :
    LoopInv m T swizzle m.code.length s' := by
  rw [← take_length (l := code), ← hcode.length_eq] at hpass
  exact (h.take ht hsmt hz hcode (Nat.le_refl _) hpass).1

/-- Where every leader is entered from code before it, a pass gets through and gains nothing. -/
theorem LoopInv.passes (hv : InferenceVerified m T) (hlead : m.LeadersEntered)
    (hz : Swizzles m.maxLocals swizzle) {i : ℕ} {rest : List Instruction}
    (h : LoopInv m T swizzle i s)
    (hrest : List.Forall₂ Instruction.SameOp (m.code.drop i) rest) (fin : Bool) :
    ∃ s', passFrom (m.analysisEnv swizzle) fin i rest s = .ok s' ∧
      s'.ctx.potential m.code.length (m.maxStack + m.maxLocals + 1) ≤
        s.ctx.potential m.code.length (m.maxStack + m.maxLocals + 1) := by
  induction rest generalizing i s with
  | nil => exact ⟨s, rfl, Nat.le_refl _⟩
  | cons insn₂ rest ih =>
    obtain ⟨insn, hinsn, hop, htail⟩ := drop_sameOp hrest
    obtain ⟨s₂, hstep⟩ := h.progress hv hlead hz hinsn hop fin
    obtain ⟨s₁, hs₁, hr⟩ := h.record hv.missing hz hinsn hop hstep
    have hinv := h.step hv.toInferredTyping hv.missing hz hinsn hop hs₁ hr
    obtain ⟨s', hs', hle⟩ := ih hinv htail
    refine ⟨s', ?_, hle.trans (h.potential_le hv hinsn hop hs₁ hr)⟩
    rw [passFrom_cons, hstep]
    exact hs'

theorem initIterator_ok (hsmt : m.missingSmt = true) : ∃ it, m.initIterator = .ok it := by
  simp only [CodeMethod.initIterator, m.missing_eq hsmt, Option.getD_none, head?_nil,
    reduceCtorEq, if_false]
  exact ⟨_, rfl⟩

theorem passFrom_code (hcode : List.Forall₂ Instruction.SameOp m.code code)
    (hpass : passFrom (m.analysisEnv swizzle) false 0 code ⟨c, it, true, [], []⟩ = .ok s) :
    List.Forall₂ Instruction.SameOp m.code s.code := by
  obtain ⟨os, hos, hsame⟩ := passFrom_sameOp hpass
  rw [show s.code = os from hos]
  exact sameOps_trans hcode hsame

/-- A pass that has lost nothing is repeated with the same knowledge. -/
theorem PassEntry.repeats (h : PassEntry m T swizzle c) (ht : InferredTyping m T)
    (hsmt : m.missingSmt = true) (hit : m.initIterator = .ok it)
    (hcode : List.Forall₂ Instruction.SameOp m.code code)
    (hpass : passFrom (m.analysisEnv swizzle) false 0 code ⟨c, it, true, [], []⟩ = .ok s)
    (hch : s.ctx.changed = false)
    (hagain : passFrom (m.analysisEnv swizzle) true 0 s.code ⟨s.ctx, it, true, [], []⟩ = .ok s') :
    s'.ctx.changed = false := by
  have hinv := h.begin hsmt hit
  obtain ⟨hknown, hfrozen, -⟩ := passFrom_inferred ht hsmt (by simpa using hcode) hinv.typed
    ⟨rfl, rfl⟩ hpass
  obtain ⟨os, hos, hsame⟩ := passFrom_sameOp hpass
  obtain rfl : s.code = os := hos
  have hk : SameKnown s.ctx s'.ctx := by
    refine passFrom_congr hsame ?_ ?_ ?_ ?_ (.inl ?_) hpass hagain
    · rfl
    · rfl
    · exact hfrozen hch
    · exact hknown.locals.trans h.known.locals.symm
    · intro insn₂ hmem
      obtain ⟨hpc, -⟩ := initIterator_missing hsmt hit
      rw [hpc]
      exact head_originalPc hcode hmem
  exact hk.changed.trans hch

/-- The refinement loop ends. -/
theorem PassEntry.terminates (hv : InferenceVerified m T) (hlead : m.LeadersEntered)
    (hz : Swizzles m.maxLocals swizzle) (h : PassEntry m T swizzle c)
    (hcode : List.Forall₂ Instruction.SameOp m.code code) :
    ∃ fuel s, analyzePasses m (m.analysisEnv swizzle) fuel false c code = some (.ok s) := by
  obtain ⟨it, hit⟩ := initIterator_ok hv.missing
  -- Each repeated pass has lost something.
  induction hn : c.potential m.code.length (m.maxStack + m.maxLocals + 1)
    using Nat.strong_induction_on generalizing c code with
  | _ n ih =>
    subst hn
    have hinv := h.begin hv.missing hit
    obtain ⟨s₁, hs₁, hle⟩ := hinv.passes hv hlead hz (by simpa using hcode) false
    have hend := hinv.pass hv.toInferredTyping hv.missing hz hcode hs₁
    have hcode₁ := passFrom_code hcode hs₁
    cases hch : s₁.ctx.changed with
    | true =>
      have hlt : AnalysisCtx.potential m.code.length (m.maxStack + m.maxLocals + 1)
          { s₁.ctx with changed := false } <
          c.potential m.code.length (m.maxStack + m.maxLocals + 1) := by
        refine Nat.lt_of_lt_of_le ?_ hle
        unfold AnalysisCtx.potential
        simp only [hch, Bool.toNat_true, Bool.toNat_false]
        omega
      obtain ⟨fuel, s, hs⟩ := ih _ hlt (hend.restart false) hcode₁ rfl
      refine ⟨fuel + 1, s, ?_⟩
      simp only [analyzePasses, hit, hs₁, hch, if_true]
      exact hs
    | false =>
      have hentry : PassEntry m T swizzle s₁.ctx := by
        have hrestart := hend.restart s₁.ctx.changed
        exact hrestart
      obtain ⟨s₂, hs₂, -⟩ := (hentry.begin hv.missing hit).passes hv hlead hz
        (by simpa using hcode₁) true
      have hch₂ := h.repeats hv.toInferredTyping hv.missing hit hcode hs₁ hch hs₂
      refine ⟨2, s₂, ?_⟩
      simp only [analyzePasses, hit, hs₁, hch, hs₂, hch₂, Bool.false_eq_true, if_false, if_true]

structure FinalPass (m : CodeMethod) (T : ℕ → Option KindFrame) (swizzle : List ℕ)
    (code : List Instruction) (start s : PassState) : Prop where
  entry : LoopInv m T swizzle 0 start
  sameOps : List.Forall₂ Instruction.SameOp m.code code
  empty : start.states = [] ∧ start.code = []
  pass : passFrom (m.analysisEnv swizzle) true 0 code start = .ok s
  unchanged : s.ctx.changed = false

theorem PassEntry.final (h : PassEntry m T swizzle c) (ht : InferredTyping m T)
    (hsmt : m.missingSmt = true) (hz : Swizzles m.maxLocals swizzle)
    (hcode : List.Forall₂ Instruction.SameOp m.code code) {fuel : ℕ}
    (hpasses : analyzePasses m (m.analysisEnv swizzle) fuel false c code = some (.ok s)) :
    ∃ code' start, FinalPass m T swizzle code' start s := by
  induction fuel generalizing c code with
  | zero => cases hpasses
  | succ fuel ih =>
    simp only [analyzePasses] at hpasses
    split at hpasses
    · cases hpasses
    rename_i it hit
    split at hpasses
    · cases hpasses
    rename_i s₁ hs₁
    have hend := (h.begin hsmt hit).pass ht hsmt hz hcode hs₁
    have hcode₁ := passFrom_code hcode hs₁
    split at hpasses
    · exact ih (hend.restart false) hcode₁ hpasses
    · rename_i hch
      have hch : s₁.ctx.changed = false := Bool.eq_false_iff.mpr hch
      have hentry : PassEntry m T swizzle s₁.ctx := by
        have hrestart := hend.restart s₁.ctx.changed
        exact hrestart
      cases fuel with
      | zero => cases hpasses
      | succ fuel =>
        simp only [Bool.false_eq_true, if_false, analyzePasses, hit] at hpasses
        split at hpasses
        · cases hpasses
        rename_i s₂ hs₂
        have hch₂ := h.repeats ht hsmt hit hcode hs₁ hch hs₂
        rw [if_neg (by rw [hch₂]; exact Bool.false_ne_true), if_pos trivial] at hpasses
        cases hpasses
        exact ⟨s₁.code, _, hentry.begin hsmt hit, hcode₁, ⟨rfl, rfl⟩, hs₂, hch₂⟩

end Passes

section Recorded

variable {m : CodeMethod} {T : ℕ → Option KindFrame} {swizzle : List ℕ} {code : List Instruction}
  {start s : PassState} {i : ℕ} {insn : Instruction}

/-- The state of the pass before instruction `i`. -/
def FinalPass.Before (_ : FinalPass m T swizzle code start s) (i : ℕ) (sᵢ : PassState) : Prop :=
  passFrom (m.analysisEnv swizzle) true 0 (code.take i) start = .ok sᵢ

variable {sᵢ : PassState}

/-- The rest of the pass learns nothing and only adds records. -/
theorem FinalPass.rest (h : FinalPass m T swizzle code start s) (ht : InferredTyping m T)
    (hsmt : m.missingSmt = true) (hz : Swizzles m.maxLocals swizzle) (hi : i ≤ m.code.length)
    (hbefore : h.Before i sᵢ) :
    LoopInv m T swizzle i sᵢ ∧ sᵢ.states.length = i ∧ SameKnown sᵢ.ctx s.ctx ∧
      ∃ ss, s.states = sᵢ.states ++ ss := by
  obtain ⟨hinv, hstates, houts⟩ := h.entry.take ht hsmt hz h.sameOps hi hbefore
  rw [h.empty.1, length_nil, Nat.zero_add] at hstates
  rw [h.empty.2, length_nil, Nat.zero_add] at houts
  have hrest : passFrom (m.analysisEnv swizzle) true i (code.drop i) sᵢ = .ok s := by
    have hpass := h.pass
    rw [← take_append_drop i code, passFrom_append,
      show passFrom (m.analysisEnv swizzle) true 0 (code.take i) start = .ok sᵢ from hbefore,
      length_take, ← h.sameOps.length_eq, Nat.min_eq_left hi, Nat.zero_add] at hpass
    exact hpass
  obtain ⟨-, hfrozen, ⟨ss, os, hss, -⟩, -⟩ := passFrom_inferred ht hsmt
    (forall₂_drop i h.sameOps) hinv.typed ⟨hstates, houts⟩ hrest
  exact ⟨hinv, hstates, hfrozen h.unchanged, ss, hss⟩

structure FinalPass.At (h : FinalPass m T swizzle code start s) (i : ℕ) (insn : Instruction)
    (sᵢ s₁ s₂ : PassState) : Prop where
  before : h.Before i sᵢ
  behind : h.Before (i + 1) s₂
  inv : LoopInv m T swizzle i sᵢ
  record : StepRecord m swizzle i insn sᵢ s₁ s₂
  recorded : s.states[i]? = some ⟨s₁.ctx.stack, s₁.ctx.locals⟩
  known : sᵢ.ctx.knownLocals = s.ctx.knownLocals
  knownBehind : s₂.ctx.knownLocals = s.ctx.knownLocals
  typed : ∃ f, T i = some f ∧ s₁.ctx.stack = f.stack

theorem FinalPass.at_of (h : FinalPass m T swizzle code start s) (ht : InferredTyping m T)
    (hsmt : m.missingSmt = true) (hz : Swizzles m.maxLocals swizzle)
    (hi : m.code[i]? = some insn) : ∃ sᵢ s₁ s₂, h.At i insn sᵢ s₁ s₂ := by
  obtain ⟨hlt, rfl⟩ := List.getElem?_eq_some_iff.mp hi
  have hlt' : i < code.length := h.sameOps.length_eq ▸ hlt
  have hget : code[i]? = some (code.get ⟨i, hlt'⟩) := getElem?_eq_getElem hlt'
  have hop : (m.code.get ⟨i, hlt⟩).SameOp (code.get ⟨i, hlt'⟩) := h.sameOps.get hlt hlt'
  obtain ⟨s₂, hs₂⟩ := passFrom_take h.pass (i + 1)
  obtain ⟨sᵢ, hsᵢ, hstep⟩ := passFrom_take_succ hget hs₂
  obtain ⟨hinv, hstates, hknown, -⟩ := h.rest ht hsmt hz (Nat.le_of_lt hlt) hsᵢ
  obtain ⟨-, -, hknown₂, ss, hss⟩ := h.rest ht hsmt hz hlt hs₂
  obtain ⟨s₁, hs₁, hr⟩ := hinv.record hsmt hz hi hop hstep
  obtain ⟨-, htyped, -⟩ := hinv.typed_step ht hsmt hi hop hs₁ hr
  refine ⟨sᵢ, s₁, s₂, hsᵢ, hs₂, hinv, hr, ?_, hknown.locals.symm, hknown₂.locals.symm, htyped⟩
  rw [hss, hr.states, append_assoc, getElem?_append_right (by omega), hstates, Nat.sub_self]
  rfl

variable {h : FinalPass m T swizzle code start s}

theorem FinalPass.before_unique {a b : PassState} (ha : h.Before i a) (hb : h.Before i b) : a = b :=
  Except.ok.inj (Eq.trans (Eq.symm ha) hb)

theorem FinalPass.At.leader {s₁ s₂ : PassState} (hat : h.At i insn sᵢ s₁ s₂) (hlead : m.Leader i) :
    s.ctx.knownLocals i = some s₁.ctx.locals := by
  rw [← hat.known]
  exact (hat.record.recovered hlead.1 ((hat.inv.ended hlead.1).mpr hlead)).2

variable {f : ℕ → TypeKind → TypeKind}

variable {k : TypeKind}

/-- The recorded locals agree with the merged edges. -/
theorem FinalPass.merged (h : FinalPass m T swizzle code start s) {t : ℕ} (he : m.MergedEdge i t f)
    {insn' : Instruction}
    {s₁ s₂ sₜ u₁ u₂ : PassState} (hi : h.At i insn sᵢ s₁ s₂) (hcode : m.code[i]? = some insn)
    (hlast : h.At t insn' sₜ u₁ u₂) {l j : ℕ} (hj : swizzle[l]? = some j)
    (hv : k ≠ .void) (hk : u₁.ctx.locals[j]? = some k) :
    ∃ x, s₁.ctx.locals[j]? = some x ∧ f l x = k := by
  have hbehind : s₂.ctx.locals[j]? = some k →
      ∃ x, s₁.ctx.locals[j]? = some x ∧ insn.writes l x = k := by
    intro hk
    rw [hi.record.behind l j hj] at hk
    exact Option.map_eq_some_iff.mp hk
  cases he with
  | next hcode' hcont =>
    cases hcode.symm.trans hcode'
    obtain rfl := FinalPass.before_unique hlast.before hi.behind
    apply hbehind
    rw [← hlast.record.carried (Nat.succ_pos i) (hi.record.terminated.trans hcont)]
    exact hk
  | branch hcode' hmem hlead =>
    cases hcode.symm.trans hcode'
    obtain ⟨-, d, hd, hwithin⟩ := hi.record.branches t hmem
    rw [hi.knownBehind, hlast.leader hlead] at hd
    cases hd
    exact hbehind (hwithin j k hv hk)
  | handler hcode' hmem hcov hpos hlead =>
    obtain ⟨d, hd, hwithin⟩ := hi.record.told.told (hi.record.handlers hpos _ hmem hcov)
    rw [hi.knownBehind, hlast.leader hlead] at hd
    cases hd
    exact ⟨k, hwithin j k hv hk, rfl⟩

def RecordedLocal (swizzle : List ℕ) (states : List StackSummary) (i l : ℕ) (k : TypeKind) : Prop :=
  k ≠ .void ∧ ∃ r j, states[i]? = some r ∧ swizzle[l]? = some j ∧ r.locals[j]? = some k

/-- The kind recorded behind an edge comes from the state recorded before it. -/
def Recovers (swizzle : List ℕ) (states : List StackSummary) (i t : ℕ)
    (f : ℕ → TypeKind → TypeKind) : Prop :=
  ∀ l k, RecordedLocal swizzle states t l k →
    ∃ r j x, states[i]? = some r ∧ swizzle[l]? = some j ∧ r.locals[j]? = some x ∧ f l x = k

variable {states : List StackSummary}

theorem Recovers.carried {t : ℕ}
    (h : Recovers swizzle states i t f) (hf : Simple f) (l : ℕ) (k : TypeKind)
    (hk : RecordedLocal swizzle states t l k) :
    (∀ x, f l x = k) ∨ RecordedLocal swizzle states i l k ∧ f l k = k := by
  obtain ⟨r, j, x, hr, hj, hx, hfx⟩ := h l k hk
  rcases hf l with ⟨k₀, hwritten⟩ | hkept
  · left
    intro y
    rw [hwritten, ← hfx, hwritten]
  · right
    rw [hkept] at hfx
    subst hfx
    exact ⟨⟨hk.1, r, j, hr, hj, hx⟩, hkept x⟩

theorem recorded_carried {G : Graph ℕ ℕ TypeKind}
    (hstart : G.start = 0) (hentry : ∀ l k, RecordedLocal swizzle states 0 l k → G.initial l = k)
    (hedge : ∀ i t f, G.edge i t f → Recovers swizzle states i t f) :
    G.Carried (RecordedLocal swizzle states) := by
  constructor
  · rw [hstart]
    exact hentry
  · intro i t f he
    exact (hedge i t f he).carried (G.simple i t f he)

theorem FinalPass.entry_eq (h : FinalPass m T swizzle code start s) (ht : InferredTyping m T)
    (hsmt : m.missingSmt = true) (hz : Swizzles m.maxLocals swizzle) (l : ℕ) (k : TypeKind)
    (hk : RecordedLocal swizzle s.states 0 l k) : m.flow.initial l = k := by
  obtain ⟨-, r, j, hr, hj, hk⟩ := hk
  obtain ⟨f, hf, -⟩ := ht.entry
  obtain ⟨insn, hi⟩ := ht.inside 0 f hf
  obtain ⟨s₀, s₁, s₂, hat⟩ := h.at_of ht hsmt hz hi
  rw [hat.recorded] at hr
  cases hr
  have hfirst := hat.record.first rfl l j hj
  exact Option.some.inj (hfirst.symm.trans hk)

theorem FinalPass.recovers_merged (h : FinalPass m T swizzle code start s)
    (ht : InferredTyping m T) (hsmt : m.missingSmt = true) (hz : Swizzles m.maxLocals swizzle)
    {t : ℕ} (he : m.MergedEdge i t f) :
    Recovers swizzle s.states i t f := by
  rintro l k ⟨hv, r, j, hr, hj, hk⟩
  have hlt : i < m.code.length := he.edge.lt
  have hi : m.code[i]? = some (m.code.get ⟨i, hlt⟩) := getElem?_eq_getElem hlt
  obtain ⟨sᵢ, s₁, s₂, hat⟩ := h.at_of ht hsmt hz hi
  obtain ⟨g, hg, -⟩ := hat.typed
  have hlt' : t < m.code.length := ht.toTyping.edge_lt hg he.edge
  have hi' : m.code[t]? = some (m.code.get ⟨t, hlt'⟩) := getElem?_eq_getElem hlt'
  obtain ⟨sₜ, u₁, u₂, hlast⟩ := h.at_of ht hsmt hz hi'
  rw [hlast.recorded] at hr
  cases hr
  obtain ⟨x, hx, hfx⟩ := h.merged he hat hi hlast hj hv hk
  exact ⟨_, j, x, hat.recorded, hj, hx, hfx⟩

theorem FinalPass.settled (h : FinalPass m T swizzle code start s) (ht : InferredTyping m T)
    (hsmt : m.missingSmt = true) (hz : Swizzles m.maxLocals swizzle) {l : ℕ}
    (hk : RecordedLocal swizzle s.states i l k) : m.mergedFlow.Settled i l k := by
  have hcarried : m.mergedFlow.Carried (RecordedLocal swizzle s.states) :=
    recorded_carried rfl (h.entry_eq ht hsmt hz) fun _ _ _ he => h.recovers_merged ht hsmt hz he
  exact hcarried.settled hk

theorem FinalPass.recorded_of_settled (h : FinalPass m T swizzle code start s)
    (hlead : m.LeadersEntered) (ht : InferredTyping m T) (hsmt : m.missingSmt = true)
    (hz : Swizzles m.maxLocals swizzle) (hi : i < m.code.length) {l j : ℕ}
    (hj : swizzle[l]? = some j) (hk : m.mergedFlow.Settled i l k) :
    ∃ r, s.states[i]? = some r ∧ r.locals[j]? = some k := by
  obtain ⟨sᵢ, s₁, s₂, hat⟩ := h.at_of ht hsmt hz (getElem?_eq_getElem hi)
  exact ⟨_, hat.recorded, hat.inv.arrives hat.record.toArriveRecord hlead.carried l j k hj hk⟩

/-- Where every leader is entered from code before it, the recorded locals agree with all edges
exactly if the merged paths agree with the missed edges. -/
theorem FinalPass.recovers_missed_iff (h : FinalPass m T swizzle code start s)
    (hlead : m.LeadersEntered) (ht : InferredTyping m T) (hsmt : m.missingSmt = true)
    (hz : Swizzles m.maxLocals swizzle) :
    (∀ i t f, m.MissedEdge i t f → Recovers swizzle s.states i t f) ↔ m.MissedEdgesAgree := by
  constructor
  · intro hall i t f he l k hl hv hsettled k' hk'
    obtain ⟨j, hj⟩ := hz.exists_get hl
    obtain ⟨g, hg⟩ := hlead.live ht.toTyping i he.edge.lt
    obtain ⟨r, hr, hk⟩ :=
      h.recorded_of_settled hlead ht hsmt hz (ht.toTyping.edge_lt hg he.edge) hj hsettled
    have hagree := (hall i t f he).carried he.edge.simple l k ⟨hv, r, j, hr, hj, hk⟩
    rcases hagree with hany | ⟨hrec, hkept⟩
    · exact hany k'
    · rw [h.settled ht hsmt hz hrec k' hk']
      exact hkept
  · intro hagree i t f he l k hrec
    obtain ⟨hv, r, j, hr, hj, hk⟩ := hrec
    have hsettled := h.settled ht hsmt hz ⟨hv, r, j, hr, hj, hk⟩
    have hall := hagree i t f he l k (hz.get_lt hj).1 hv hsettled
    have hlt := he.edge.lt
    obtain ⟨sᵢ, s₁, s₂, hat⟩ := h.at_of ht hsmt hz (getElem?_eq_getElem hlt)
    have hj' : j < s₁.ctx.locals.length := hat.record.length ▸ (hz.get_lt hj).2
    rcases he.edge.simple l with ⟨k₀, hwritten⟩ | hkept
    · obtain ⟨k', hk'⟩ := hlead.reached i hlt l
      have hk₀ := hall k' hk'
      rw [hwritten] at hk₀
      refine ⟨_, j, _, hat.recorded, hj, getElem?_eq_getElem hj', ?_⟩
      rw [hwritten, hk₀]
    · have hbefore : m.mergedFlow.Settled i l k := by
        intro k' hk'
        rw [← hall k' hk', hkept]
      obtain ⟨r', hr', hk'⟩ := h.recorded_of_settled hlead ht hsmt hz hlt hj hbefore
      exact ⟨r', j, k, hr', hj, hk', hkept k⟩

end Recorded

section Fixpoint

variable {m : CodeMethod} {T : ℕ → Option KindFrame} {swizzle : List ℕ} {i : ℕ}
  {insn : Instruction} {r p : StackSummary}

theorem produce_eq_ok (h : m.produce swizzle i insn r = .ok p) : ∃ before insn₁,
    Analyzed (m.analysisEnv swizzle) false i { insn with tosBefore := before }
      ⟨r.stack, r.locals, [], fun _ => none, fun _ => none, false⟩ p.stack p.locals insn₁ := by
  unfold CodeMethod.produce at h
  cases hana : analyzeInstruction (m.analysisEnv swizzle) false i insn
      ⟨r.stack, r.locals, [], fun _ => none, fun _ => none, false⟩ with
  | error e =>
    rw [hana] at h
    cases h
  | ok q =>
    rw [hana] at h
    cases h
    obtain ⟨before, after, insn₁, -, -, hinsn, -⟩ := analyzeInstruction_analyzed hana
    exact ⟨before, insn₁, hinsn⟩

theorem produce_locals (h : m.produce swizzle i insn r = .ok p)
    (hz : Swizzles m.maxLocals swizzle) (hlen : r.locals.length = m.maxLocals) :
    p.locals.length = m.maxLocals ∧ ∀ l j : ℕ, swizzle[l]? = some j →
      p.locals[j]? = (r.locals[j]?).map (insn.writes l) := by
  obtain ⟨before, insn₁, hinsn⟩ := produce_eq_ok h
  exact ⟨hinsn.locals_length.trans hlen, fun l j hj => hinsn.writes hz hlen hj⟩

theorem noMorePrecise_self (a : List TypeKind) : NoMorePrecise a a :=
  forall₂_same.mpr fun _ _ => .inr rfl

theorem NoMorePrecise.within {a b : List TypeKind} (h : NoMorePrecise a b) : Within a b := by
  intro j k hv hk
  induction h generalizing j with
  | nil => cases hk
  | cons hab _ ih =>
    cases j with
    | zero =>
      cases hk
      exact congrArg some (hab.resolve_left hv).symm
    | succ j => exact ih j hk

theorem noMorePrecise_of_within {a b : List TypeKind} (hlen : a.length = b.length)
    (h : Within a b) : NoMorePrecise a b := by
  refine forall₂_iff_get.mpr ⟨hlen, fun j ha hb => ?_⟩
  by_cases hv : a.get ⟨j, ha⟩ = .void
  · exact .inl hv
  · right
    have hk := h j _ hv (getElem?_eq_getElem ha)
    rw [getElem?_eq_getElem hb] at hk
    exact (Option.some.inj hk).symm

/-- The analysis of an instruction in its recorded state. -/
theorem FinalPass.produces {code : List Instruction} {start s : PassState}
    (h : FinalPass m T swizzle code start s) (hv : InferenceVerified m T)
    (hlead : m.LeadersEntered) (hz : Swizzles m.maxLocals swizzle) {f g : KindFrame}
    (hi : m.code[i]? = some insn) (hf : T i = some f)
    (hg : typeStep m.maxLocals insn f = some g) (hr : s.states[i]? = some r) :
    ∃ p, m.produce swizzle i insn r = .ok p ∧ p.stack = g.stack := by
  obtain ⟨sᵢ, s₁, s₂, hat⟩ := h.at_of hv.toInferredTyping hv.missing hz hi
  obtain ⟨f', hf', hstack⟩ := hat.typed
  cases hf.symm.trans hf'
  rw [hat.recorded] at hr
  cases hr
  obtain ⟨g', hg', -, hnext⟩ := hv.step i insn f hi hf
  cases hg.symm.trans hg'
  have hag : AgreesLocals swizzle s₁.ctx.locals f.locals := by
    intro l j hj hk
    exact hat.inv.arrives hat.record.toArriveRecord (hlead.typed hv.toTyping) l j _ hj
      ⟨f, hf, hk, rfl⟩
  have hana : ∃ q, analyzeInstruction (m.analysisEnv swizzle) false i insn
      ⟨s₁.ctx.stack, s₁.ctx.locals, [], fun _ => none, fun _ => none, false⟩ = .ok q := by
    refine analyzeInstruction_ok hg (.self insn) hstack (hv.noVoid i f hf) hz hag
      (hv.depth i f hf) ?_
    intro hshuffle
    obtain ⟨-, -, -, hcont, -⟩ := loadKind_of_isShuffle hshuffle
    obtain ⟨d, hd, hassign⟩ := hnext hcont
    rw [hassign.stack_eq (hv.noVoid _ d hd)]
    exact hv.depth _ d hd
  obtain ⟨q, hq⟩ := hana
  have hp : m.produce swizzle i insn ⟨s₁.ctx.stack, s₁.ctx.locals⟩ =
      .ok ⟨q.1.stack, q.1.locals⟩ := by
    unfold CodeMethod.produce
    rw [hq]
    rfl
  obtain ⟨before, insn₁, hinsn⟩ := produce_eq_ok hp
  have hg₂ : typeStep (m.analysisEnv swizzle).maxLocals { insn with tosBefore := before } f =
      some g := hg
  exact ⟨_, hp, (hinsn.typed hg₂ hstack).1⟩

/-- The recorded states are a post-fixpoint exactly if the merged paths agree with the missed
edges. -/
theorem FinalPass.postFixpoint_iff {code : List Instruction} {start s : PassState}
    (h : FinalPass m T swizzle code start s) (hv : InferenceVerified m T)
    (hlead : m.LeadersEntered) (hz : Swizzles m.maxLocals swizzle) {A : CodeAnalysis}
    (hA : A.states = s.states) : m.PostFixpoint swizzle A ↔ m.MissedEdgesAgree := by
  have ht := hv.toInferredTyping
  rw [← h.recovers_missed_iff hlead ht hv.missing hz]
  have hlen : ∀ i r, s.states[i]? = some r → i < m.code.length →
      r.locals.length = m.maxLocals := by
    intro i r hr hi
    obtain ⟨sᵢ, s₁, s₂, hat⟩ := h.at_of ht hv.missing hz (getElem?_eq_getElem hi)
    rw [hat.recorded] at hr
    cases hr
    exact hat.record.length
  constructor
  · intro hpost i t f he l k hrec
    obtain ⟨hk, r', j, hr', hj, hkind⟩ := hrec
    have hfound : ∀ insn, m.code[i]? = some insn → ∃ r p, s.states[i]? = some r ∧
        m.produce swizzle i insn r = .ok p ∧
        (∀ t ∈ insn.branchTargets, A.AtMost t p.stack p.locals) ∧
        (∀ e ∈ m.exceptionTable, e.covers i → A.AtMost e.handlerInsn [.reference] r.locals) ∧
        r.locals.length = m.maxLocals := by
      intro insn hi
      obtain ⟨r, p, hr, hp, -, hbranch, hhandler⟩ := hpost.edges i insn hi
      rw [hA] at hr
      exact ⟨r, p, hr, hp, hbranch, hhandler, hlen i r hr he.edge.lt⟩
    have hwithin : ∀ {st ls : List TypeKind}, A.AtMost t st ls → ls[j]? = some k := by
      rintro st ls ⟨r, hr, -, hls⟩
      rw [hA, hr'] at hr
      cases hr
      exact hls.within j k hk hkind
    cases he with
    | branch hi hmem =>
      obtain ⟨r, p, hr, hp, hbranch, -, hr_len⟩ := hfound _ hi
      have hbehind := hwithin (hbranch t hmem)
      rw [(produce_locals hp hz hr_len).2 l j hj] at hbehind
      obtain ⟨x, hx, hfx⟩ := Option.map_eq_some_iff.mp hbehind
      exact ⟨r, j, x, hr, hj, hx, hfx⟩
    | handler hi hmem hcov =>
      obtain ⟨r, p, hr, -, -, hhandler, -⟩ := hfound _ hi
      exact ⟨r, j, k, hr, hj, hwithin (hhandler _ hmem hcov), rfl⟩
  · intro hmissed
    have hall : ∀ i t f, m.Edge i t f → Recovers swizzle s.states i t f := by
      intro i t f he
      rcases he.merged_or_missed with hmerged | hmiss
      · exact h.recovers_merged ht hv.missing hz hmerged
      · exact hmissed i t f hmiss
    -- What is recorded behind an edge against the state that arrives there.
    have hatMost : ∀ {i t f} {st ls : List TypeKind} {r : StackSummary} {before d : KindFrame},
        m.Edge i t f → T i = some before → T t = some d → d.stack = st →
        s.states[i]? = some r → ls.length = m.maxLocals →
        (∀ l j : ℕ, swizzle[l]? = some j → ls[j]? = (r.locals[j]?).map (f l)) →
        A.AtMost t st ls := by
      intro i t f st ls r before d he hbefore hd hst hr hls hmap
      have hlt := ht.toTyping.edge_lt hbefore he
      obtain ⟨sₜ, u₁, u₂, hat⟩ := h.at_of ht hv.missing hz (getElem?_eq_getElem hlt)
      obtain ⟨d', hd', hstack⟩ := hat.typed
      cases hd.symm.trans hd'
      refine ⟨_, hA ▸ hat.recorded, ?_, ?_⟩
      · dsimp only
        rw [hstack, hst]
        exact noMorePrecise_self st
      · apply noMorePrecise_of_within (hat.record.length.trans hls.symm)
        intro j k hk hkind
        have hj : j < m.maxLocals := by
          rw [← hat.record.length]
          exact (List.getElem?_eq_some_iff.mp hkind).1
        obtain ⟨l, hl⟩ := hz.exists_slot hj
        obtain ⟨r', j', x, hr', hj', hx, hfx⟩ :=
          hall i t f he l k ⟨hk, _, j, hat.recorded, hl, hkind⟩
        cases hr.symm.trans hr'
        cases hl.symm.trans hj'
        rw [hmap l j hl, hx]
        exact congrArg some hfx
    constructor
    · intro i insn hi
      obtain ⟨hlt, -⟩ := List.getElem?_eq_some_iff.mp hi
      obtain ⟨f, hf⟩ := hlead.live ht.toTyping i hlt
      obtain ⟨g, hg, hbranch, hnext⟩ := hv.step i insn f hi hf
      obtain ⟨sᵢ, s₁, s₂, hat⟩ := h.at_of ht hv.missing hz hi
      obtain ⟨p, hp, hstack⟩ := h.produces hv hlead hz hi hf hg hat.recorded
      obtain ⟨hplen, hplocals⟩ := produce_locals hp hz hat.record.length
      refine ⟨_, p, hA ▸ hat.recorded, hp, ?_, ?_, ?_⟩
      · intro hcont
        obtain ⟨d, hd, hassign⟩ := hnext hcont
        exact hatMost (.next hi hcont) hf hd
          ((hassign.stack_eq (hv.noVoid _ d hd)).symm.trans hstack.symm) hat.recorded hplen hplocals
      · intro t hmem
        obtain ⟨d, hd, hassign⟩ := hbranch t hmem
        exact hatMost (.branch hi hmem) hf hd
          ((hassign.stack_eq (hv.noVoid _ d hd)).symm.trans hstack.symm) hat.recorded hplen hplocals
      · intro e hmem hcov
        obtain ⟨d, hd, hassign⟩ := hv.handlers i f hf e hmem hcov
        refine hatMost (.handler hi hmem hcov) hf hd (hassign.stack_eq (hv.noVoid _ d hd)).symm
          hat.recorded hat.record.length fun l j hj => ?_
        exact (Option.map_id' ..).symm
    · intro i r l j k hr hj hkind hk
      have hcarried : m.flow.Carried (RecordedLocal swizzle s.states) :=
        recorded_carried rfl (h.entry_eq ht hv.missing hz) hall
      exact hcarried.settled ⟨hk, r, j, hA ▸ hr, hj, hkind⟩

end Fixpoint

section Loop

variable {m : CodeMethod} {T : ℕ → Option KindFrame} {swizzle : List ℕ} {locals : List TypeKind}

/-- What is known about a leader in the first pass comes from an edge before. -/
def CodeMethod.KnownFrom (m : CodeMethod) (i : ℕ) (c : AnalysisCtx) : Prop :=
  ∀ t, m.Leader t → (c.knownLocals t).isSome → ∃ j f, j < i ∧ m.MergedEdge j t f

theorem AnalysisCtx.Meets.knownLocals_of_isSome {ts : List ℕ} {c c' : AnalysisCtx} {t : ℕ}
    (h : c.Meets ts c') (ht : (c'.knownLocals t).isSome) :
    t ∈ ts ∨ (c.knownLocals t).isSome := by
  induction h with
  | refl => exact .inr ht
  | edges _ es ih => exact ih ht
  | stack _ _ ih => exact ih ht
  | @locals c₁ u _ hu ih =>
    by_cases htu : t = u
    · exact .inl (htu ▸ hu)
    · rw [intersectLocals_of_ne htu] at ht
      exact ih ht

theorem StepRecord.knownFrom {i : ℕ} {insn : Instruction} {s s₁ s₂ : PassState}
    (hr : StepRecord m swizzle i insn s s₁ s₂) (hinv : LoopInv m T swizzle i s)
    (hi : m.code[i]? = some insn) (h : m.KnownFrom i s.ctx) : m.KnownFrom (i + 1) s₂.ctx := by
  intro t hlead hsome
  obtain ⟨ts, htold, hmeets⟩ := hr.meets
  rcases hr.told.knownLocals_of_isSome hsome with hmem | hsome
  · exact ⟨i, _, Nat.lt_succ_self i, .branch hi hmem hlead⟩
  · rcases hmeets.knownLocals_of_isSome hsome with hmem | hsome
    · obtain ⟨hpos, ⟨rfl, hcont⟩ | ⟨e, he, hcov, rfl⟩⟩ := htold t hmem
      · rw [(hinv.ended hpos).mpr hlead] at hcont
        cases hcont
      · exact ⟨i, _, Nat.lt_succ_self i, .handler hi he hcov hpos hlead⟩
    · obtain ⟨j, f, hj, he⟩ := h t hlead hsome
      exact ⟨j, f, Nat.lt_succ_of_lt hj, he⟩

theorem startCtx_knownLocals (t : ℕ) : (m.startCtx swizzle locals).knownLocals t = none := by
  unfold CodeMethod.startCtx
  dsimp only
  split
  · rw [fillExceptionHandlers_knownLocals]
  · rfl

theorem startCtx_entry (ht : InferredTyping m T) (hsmt : m.missingSmt = true)
    (hlen : locals.length = m.maxLocals) (hlive : ∀ j, j < m.code.length → ∃ f, T j = some f) :
    PassEntry m T swizzle (m.startCtx swizzle locals) := by
  constructor
  · unfold CodeMethod.startCtx
    rw [hsmt]
    exact fillExceptionHandlers_known ht hlive ⟨nofun, nofun, nofun, hlen⟩
  · intro P hP t ls hlead hls
    rw [startCtx_knownLocals] at hls
    cases hls
  · intro e he
    unfold CodeMethod.startCtx
    rw [hsmt]
    dsimp only
    rw [if_pos rfl, fillExceptionHandlers_knownStacks (.inl rfl), if_pos ⟨e, he, rfl⟩]
    rfl

theorem analyzeMethodCode_missing {fuel : ℕ} {A : CodeAnalysis} (hsmt : m.missingSmt = true)
    (h : analyzeMethodCode fuel m = some (.ok A)) :
    ∃ swizzle locals s, m.localsOnMethodEntry = .ok (swizzle, locals) ∧
      analyzePasses m (m.analysisEnv swizzle) fuel false (m.startCtx swizzle locals) m.code =
        some (.ok s) ∧ A.states = s.states := by
  obtain ⟨swizzle, locals, c, s, hentry, rfl, hpasses, -, hstates⟩ := analyzeMethodCode_eq_ok h
  rw [show (!m.missingSmt) = false by rw [hsmt]; rfl] at hpasses
  exact ⟨swizzle, locals, s, hentry, hpasses, hstates⟩

theorem sameOps_self (m : CodeMethod) : List.Forall₂ Instruction.SameOp m.code m.code :=
  forall₂_same.mpr fun insn _ => .self insn

/-- The loop gets through only where every leader is entered from code before it. -/
theorem leadersEntered_of_passes (ht : InferredTyping m T) (hsmt : m.missingSmt = true)
    (hentry : m.localsOnMethodEntry = .ok (swizzle, locals)) {fuel : ℕ} {s : PassState}
    (h : analyzePasses m (m.analysisEnv swizzle) fuel false (m.startCtx swizzle locals) m.code =
      some (.ok s)) : m.LeadersEntered := by
  obtain ⟨hz, hlen, -⟩ := localsOnMethodEntry_swizzles hentry
  obtain ⟨it, s', hit, hpass⟩ := analyzePasses_first h
  obtain ⟨hpc, hnext, -⟩ := initIterator_missing hsmt hit
  have hlive : ∀ j, j < m.code.length → ∃ f, T j = some f := by
    refine fun j => passFrom_live ht.toTyping hsmt (by simpa using sameOps_self m) ?_ ⟨hpc, hnext⟩
      (fun hpos => absurd hpos (Nat.lt_irrefl 0)) hpass j (Nat.zero_le j)
    intro t ls hls
    rw [startCtx_knownLocals] at hls
    cases hls
  have hfirst : PassEntry m T swizzle (m.startCtx swizzle locals) :=
    startCtx_entry ht hsmt hlen hlive
  have hstart := hfirst.begin hsmt hit
  have hfrom : ∀ i sᵢ, i ≤ m.code.length →
      passFrom (m.analysisEnv swizzle) false 0 (m.code.take i)
        ⟨m.startCtx swizzle locals, it, true, [], []⟩ = .ok sᵢ → m.KnownFrom i sᵢ.ctx := by
    intro i
    induction i with
    | zero =>
      intro sᵢ _ hsᵢ t _ hsome
      rw [take_zero] at hsᵢ
      cases hsᵢ
      rw [startCtx_knownLocals] at hsome
      cases hsome
    | succ i ih =>
      intro s₂ hi hs₂
      have hget : m.code[i]? = some (m.code.get ⟨i, hi⟩) := getElem?_eq_getElem hi
      obtain ⟨sᵢ, hsᵢ, hstep⟩ := passFrom_take_succ hget hs₂
      obtain ⟨hinv, -⟩ := hstart.take ht hsmt hz (sameOps_self m) (Nat.le_of_succ_le hi) hsᵢ
      obtain ⟨s₁, -, hr⟩ := hinv.record hsmt hz hget (.self _) hstep
      exact hr.knownFrom hinv hget (ih sᵢ (Nat.le_of_succ_le hi) hsᵢ)
  intro t hlead hlt
  have hget : m.code[t]? = some (m.code.get ⟨t, hlt⟩) := getElem?_eq_getElem hlt
  obtain ⟨sₜ, s₂, hsₜ, hstep⟩ := passFrom_step hpass hget
  obtain ⟨hinv, -⟩ := hstart.take ht hsmt hz (sameOps_self m) hlt.le hsₜ
  obtain ⟨s₁, -, hr⟩ := hinv.record hsmt hz hget (.self _) hstep
  have hknown := (hr.recovered hlead.1 ((hinv.ended hlead.1).mpr hlead)).2
  exact hfrom t sₜ hlt.le hsₜ t hlead (by rw [hknown]; rfl)

/-- The refinement loop of a verified method ends without stopping the process, with a
post-fixpoint, exactly if every leader is entered from code before it and the merged paths agree
with the missed edges. -/
theorem refines_iff (hv : InferenceVerified m T) :
    m.Refines ↔ m.LeadersEntered ∧ m.MissedEdgesAgree := by
  have ht := hv.toInferredTyping
  constructor
  · rintro ⟨fuel, A, swizzle, locals, hA, hentry, hpost⟩
    obtain ⟨swizzle', locals', s, hentry', hpasses, hstates⟩ :=
      analyzeMethodCode_missing hv.missing hA
    rw [hentry] at hentry'
    cases hentry'
    obtain ⟨hz, hlen, -⟩ := localsOnMethodEntry_swizzles hentry
    have hlead := leadersEntered_of_passes ht hv.missing hentry hpasses
    have hstart : PassEntry m T swizzle (m.startCtx swizzle locals) :=
      startCtx_entry ht hv.missing hlen (hlead.live ht.toTyping)
    obtain ⟨code, start, hfinal⟩ := hstart.final ht hv.missing hz (sameOps_self m) hpasses
    exact ⟨hlead, (hfinal.postFixpoint_iff hv hlead hz hstates).mp hpost⟩
  · rintro ⟨hlead, hagree⟩
    obtain ⟨slots, hslots⟩ := Option.isSome_iff_exists.mp hv.arguments
    obtain ⟨swizzle, locals, hentry⟩ : ∃ swizzle locals,
        m.localsOnMethodEntry = .ok (swizzle, locals) := by
      unfold CodeMethod.localsOnMethodEntry
      rw [hslots]
      exact ⟨_, _, rfl⟩
    obtain ⟨hz, hlen, -⟩ := localsOnMethodEntry_swizzles hentry
    have hstart : PassEntry m T swizzle (m.startCtx swizzle locals) :=
      startCtx_entry ht hv.missing hlen (hlead.live ht.toTyping)
    obtain ⟨fuel, s, hpasses⟩ := hstart.terminates hv hlead hz (sameOps_self m)
    obtain ⟨code, start, hfinal⟩ := hstart.final ht hv.missing hz (sameOps_self m) hpasses
    have hlvt : (m.lvt.any fun i => m.maxLocals ≤ i) = false := by
      rw [any_eq_false]
      intro i hi
      have hlt := hv.lvtIndices i hi
      simp only [decide_eq_true_eq]
      omega
    have hA : analyzeMethodCode fuel m =
        some (.ok ⟨s.code, s.states, m.lvt.map fun i => swizzle.getD i 0⟩) := by
      unfold analyzeMethodCode
      rw [hentry]
      dsimp only
      rw [hlvt, if_neg Bool.false_ne_true]
      unfold CodeMethod.startCtx CodeMethod.analysisEnv at hpasses
      rw [show (!m.missingSmt) = false by rw [hv.missing]; rfl, hpasses]
      rfl
    exact ⟨fuel, _, swizzle, locals, hA, hentry,
      (hfinal.postFixpoint_iff hv hlead hz rfl).mpr hagree⟩

end Loop

def oldMethod (code : List Instruction) (hzero : ∀ insn, code[0]? = some insn → insn.originalPc = 0)
    (hlt : code.Pairwise fun a b => a.originalPc < b.originalPc) : CodeMethod where
  maxStack := 1
  maxLocals := 1
  code := code
  exceptionTable := []
  lvt := []
  stackMapTable := none
  pc_zero := hzero
  pc_lt := hlt
  isStatic := true
  isCtor := false
  descriptor := .empty
  missingSmt := true
  missing_eq := fun _ => rfl

def waitLoop : CodeMethod :=
  oldMethod [{ kind := .iconst, originalPc := 0 }, { kind := .istore, originalPc := 1 },
    { kind := .iload, originalPc := 2 }, { kind := .ifeq, originalPc := 3, index := 2 },
    { kind := .returnVoid, originalPc := 6 }] (by simp) (by decide)

def retypedLocal : CodeMethod :=
  oldMethod [{ kind := .aconstNull, originalPc := 0 }, { kind := .astore, originalPc := 1 },
    { kind := .iconst, originalPc := 2 }, { kind := .istore, originalPc := 3 },
    { kind := .goto, originalPc := 4, index := 2 }] (by simp) (by decide)

/-- The frames of `waitLoop`. -/
def waitFrames (i : ℕ) : Option KindFrame :=
  [⟨[], fun _ => .void⟩, ⟨[.int], fun _ => .void⟩, ⟨[], storeLocal 0 .int fun _ => .void⟩,
    ⟨[.int], storeLocal 0 .int fun _ => .void⟩, ⟨[], storeLocal 0 .int fun _ => .void⟩][i]?

/-- The frames of `retypedLocal`. -/
def retypedFrames (i : ℕ) : Option KindFrame :=
  [⟨[], fun _ => .void⟩, ⟨[.reference], fun _ => .void⟩, ⟨[], fun _ => .void⟩,
    ⟨[.int], fun _ => .void⟩, ⟨[], storeLocal 0 .int fun _ => .void⟩][i]?

theorem oldMethod_verified {code : List Instruction}
    {hzero : ∀ insn, code[0]? = some insn → insn.originalPc = 0}
    {hlt : code.Pairwise fun a b => a.originalPc < b.originalPc} {T : ℕ → Option KindFrame}
    (hinside : ∀ i f, T i = some f → i < code.length) (hentry : T 0 = some ⟨[], fun _ => .void⟩)
    (hstep : ∀ i insn f, code[i]? = some insn → T i = some f →
      ∃ g, typeStep 1 insn f = some g ∧
        (∀ t ∈ insn.branchTargets, ∃ d, T t = some d ∧ g.Assignable d) ∧
        (insn.kind.terminates = false → ∃ d, T (i + 1) = some d ∧ g.Assignable d))
    (hstack : ∀ i f, T i = some f → .void ∉ f.stack ∧ f.stack.length ≤ 1) :
    InferenceVerified (oldMethod code hzero hlt) T where
  inside i f hf := ⟨_, getElem?_eq_getElem (hinside i f hf)⟩
  entry := ⟨_, hentry, .nil, fun _ => .inl rfl⟩
  step := hstep
  handlers _ _ _ _ he := absurd he not_mem_nil
  noVoid i f hf := (hstack i f hf).1
  ranges _ he := absurd he not_mem_nil
  missing := rfl
  depth i f hf := (hstack i f hf).2
  arguments := rfl
  lvtIndices _ hi := absurd hi not_mem_nil

theorem waitLoop_verified : InferenceVerified waitLoop waitFrames := by
  apply oldMethod_verified
  · intro i f hf
    exact (List.getElem?_eq_some_iff.mp hf).1
  · rfl
  · intro i insn f hi hf
    match i with
    | 0 | 1 | 2 =>
      cases hi
      cases hf
      exact ⟨_, rfl, fun t ht => absurd ht not_mem_nil,
        fun _ => ⟨_, rfl, KindFrame.assignable_self _⟩⟩
    | 3 =>
      cases hi
      cases hf
      refine ⟨_, rfl, ?_, fun _ => ⟨_, rfl, KindFrame.assignable_self _⟩⟩
      intro t ht
      obtain rfl := mem_singleton.mp ht
      exact ⟨_, rfl, KindFrame.assignable_self _⟩
    | 4 =>
      cases hi
      cases hf
      exact ⟨_, rfl, fun t ht => absurd ht not_mem_nil, fun h => by cases h⟩
    | i + 5 => cases hi
  · intro i f hf
    match i with
    | 0 | 1 | 2 | 3 | 4 =>
      cases hf
      exact ⟨by simp, by simp⟩
    | i + 5 => cases hf

theorem retypedLocal_verified : InferenceVerified retypedLocal retypedFrames := by
  apply oldMethod_verified
  · intro i f hf
    exact (List.getElem?_eq_some_iff.mp hf).1
  · rfl
  · intro i insn f hi hf
    match i with
    | 0 | 2 | 3 =>
      cases hi
      cases hf
      exact ⟨_, rfl, fun t ht => absurd ht not_mem_nil,
        fun _ => ⟨_, rfl, KindFrame.assignable_self _⟩⟩
    | 1 =>
      cases hi
      cases hf
      exact ⟨_, rfl, fun t ht => absurd ht not_mem_nil,
        fun _ => ⟨_, rfl, .nil, fun _ => .inl rfl⟩⟩
    | 4 =>
      cases hi
      cases hf
      refine ⟨_, rfl, ?_, fun h => by cases h⟩
      intro t ht
      obtain rfl := mem_singleton.mp ht
      exact ⟨_, rfl, .nil, fun _ => .inl rfl⟩
    | i + 5 => cases hi
  · intro i f hf
    match i with
    | 0 | 1 | 2 | 3 | 4 =>
      cases hf
      exact ⟨by simp, by simp⟩
    | i + 5 => cases hf

/-- The local of the loop holds an integer wherever the loop is. -/
theorem waitLoop_settled (i : ℕ) (k : TypeKind) (hi : 2 ≤ i)
    (h : waitLoop.mergedFlow.Holds i 0 k) : k = .int := by
  have hcarried : waitLoop.mergedFlow.Carried fun i l k => 2 ≤ i ∧ l = 0 ∧ k = .int := by
    constructor
    · rintro l k ⟨hi, -⟩
      exact absurd hi (by decide)
    · rintro i t f he l k ⟨ht, rfl, rfl⟩
      cases he with
      | next hi hcont =>
        match i with
        | 0 => exact absurd ht (by decide)
        | 1 =>
          cases hi
          exact .inl fun _ => rfl
        | 2 | 3 =>
          cases hi
          exact .inr ⟨⟨by decide, rfl, rfl⟩, rfl⟩
        | 4 =>
          cases hi
          cases hcont
        | i + 5 => cases hi
      | branch hi hmem hlead =>
        match i with
        | 0 | 1 | 2 | 4 =>
          cases hi
          cases hmem
        | 3 =>
          cases hi
          obtain rfl := mem_singleton.mp hmem
          obtain ⟨-, p, hp, hterm⟩ := hlead
          cases hp
          cases hterm
        | i + 5 => cases hi
      | handler _ hmem => cases hmem
  exact hcarried.settled ⟨hi, rfl, rfl⟩ k h

theorem waitLoop_refines : waitLoop.Refines := by
  refine (refines_iff waitLoop_verified).mpr ⟨?_, ?_⟩
  · rintro i ⟨hpos, p, hp, hterm⟩ hi
    rcases i with _ | _ | _ | _ | _ | i
    · cases hpos
    iterate 4
      · cases hp
        cases hterm
    · exact absurd hi (by simp [waitLoop, oldMethod])
  · intro i t f he l k hl hv hsettled k' hk'
    obtain rfl : l = 0 := Nat.lt_one_iff.mp hl
    cases he with
    | branch hi hmem =>
      rcases i with _ | _ | _ | _ | _ | i
      iterate 3
        · cases hi
          cases hmem
      · cases hi
        obtain rfl := mem_singleton.mp hmem
        have hpush : waitLoop.mergedFlow.Holds 1 0 .void :=
          .edge (.start 0) (show waitLoop.mergedFlow.edge 0 1 _ from .next rfl rfl)
        have hint : waitLoop.mergedFlow.Holds 2 0 .int :=
          .edge hpush (show waitLoop.mergedFlow.edge 1 2 _ from .next rfl rfl)
        obtain rfl := hsettled _ hint
        exact waitLoop_settled 3 k' (by decide) hk'
      · cases hi
        cases hmem
      · cases hi
    | handler _ hmem => cases hmem

/-- The first store of the loop's local is recorded where the second one has taken its place. -/
theorem retypedLocal_notRefined :
    InferenceVerified retypedLocal retypedFrames ∧ ¬ retypedLocal.Refines := by
  refine ⟨retypedLocal_verified, ?_⟩
  rintro ⟨fuel, A, swizzle, locals, hA, hentry, hpost⟩
  match fuel with
  | 0 | 1 | 2 => cases hA
  | fuel + 3 =>
    obtain ⟨code, lvt, hrun⟩ : ∃ code lvt, analyzeMethodCode (fuel + 3) retypedLocal =
        some (.ok ⟨code, [⟨[], [.void]⟩, ⟨[.reference], [.void]⟩, ⟨[], [.reference]⟩,
          ⟨[.int], [.reference]⟩, ⟨[], [.int]⟩], lvt⟩) := ⟨_, _, rfl⟩
    rw [hrun] at hA
    cases hA
    obtain ⟨r, p, hr, hp, -, hbranch, -⟩ := hpost.edges 4 _ rfl
    cases hr
    cases hp
    obtain ⟨r, hr, -, hls⟩ := hbranch 2 mem_cons_self
    cases hr
    rcases hls with _ | ⟨hkind, -⟩
    rcases hkind with hkind | hkind <;> cases hkind

end TraceJvm
