import TraceJvm.AnalysisPasses
import TraceJvm.Lib.Outcome

/-! Every step of every pass that the analysis of a method makes, and the rule that proves an
invariant of them. -/
namespace TraceJvm
open Outcome List

def PassState.step (env : AnalysisEnv) (finished : Bool) (i : ℕ) (insn : Instruction)
    (s : PassState) : Except AnalysisError PassState := do
  let s ← s.arrive env i insn
  let (ctx, insn') ← analyzeInstruction env finished i insn s.ctx
  return { s with
    ctx := ctx
    terminated := insn.kind.terminates
    states := s.states ++ [⟨s.ctx.stack, s.ctx.locals⟩]
    code := s.code ++ [insn'] }

inductive ArrivesBy (env : AnalysisEnv) (i : ℕ) (insn : Instruction) (s : PassState) :
    PassState → Prop where
  | frame {it : FrameIterator} (hpc : insn.originalPc = s.iter.pc)
      (hit : s.iter.hasNext = false ∧ it = s.iter ∨
        s.iter.hasNext = true ∧ s.iter.next env.maxStack env.maxLocals = .ok it) :
      ArrivesBy env i insn s { s with ctx := s.ctx.useStackMapFrame env s.iter, iter := it }
  | known {st ls : List TypeKind} (hpc : insn.originalPc ≠ s.iter.pc)
      (hsmt : env.missingSmt = true) (hterm : s.terminated = true)
      (hst : s.ctx.knownStacks i = some st) (hls : s.ctx.knownLocals i = some ls) :
      ArrivesBy env i insn s
        { s with
          ctx := { s.ctx with stack := st.reverse, locals := ls }.intersectExceptionHandlers env i }
  | merged (hpc : insn.originalPc ≠ s.iter.pc) (hsmt : env.missingSmt = true)
      (hterm : s.terminated = false) :
      ArrivesBy env i insn s
        { s with
          ctx := ((s.ctx.intersectStack i s.ctx.stack).intersectLocals i).intersectExceptionHandlers
            env i }
  | carried (hpc : insn.originalPc ≠ s.iter.pc) (hsmt : env.missingSmt = false) :
      ArrivesBy env i insn s s

variable {env : AnalysisEnv} {fin : Bool}

variable {insn : Instruction} {s : PassState}

theorem arrivesBy_of_arrive {i : ℕ} {s₁ : PassState}
    (h : s.arrive env i insn = .ok s₁) : ArrivesBy env i insn s s₁ := by
  unfold PassState.arrive at h
  split at h
  · rename_i hpc
    dsimp only at h
    split at h
    · rename_i hnext
      split at h
      · cases h
      · rename_i it hit
        cases h
        exact .frame hpc (.inr ⟨hnext, hit⟩)
    · rename_i hnext
      cases h
      exact .frame hpc (.inl ⟨Bool.eq_false_iff.mpr hnext, rfl⟩)
  · rename_i hpc
    split at h
    · rename_i hsmt
      split at h
      · rename_i hterm
        split at h
        · rename_i st ls hst hls
          cases h
          exact .known hpc hsmt hterm hst hls
        · cases h
      · rename_i hterm
        cases h
        exact .merged hpc hsmt (Bool.eq_false_iff.mpr hterm)
    · rename_i hsmt
      cases h
      exact .carried hpc (Bool.eq_false_iff.mpr hsmt)

theorem step_eq_ok {i : ℕ} {insn : Instruction} {s s' : PassState}
    (h : s.step env fin i insn = .ok s') :
    ∃ s₁ c insn', s.arrive env i insn = .ok s₁ ∧
      analyzeInstruction env fin i insn s₁.ctx = .ok (c, insn') ∧
      s' = { s₁ with
        ctx := c
        terminated := insn.kind.terminates
        states := s₁.states ++ [⟨s₁.ctx.stack, s₁.ctx.locals⟩]
        code := s₁.code ++ [insn'] } := by
  obtain ⟨s₁, hs₁, h⟩ := bind_eq_ok.mp h
  obtain ⟨⟨c, insn'⟩, hana, heq⟩ := bind_eq_ok.mp h
  cases heq
  exact ⟨s₁, c, insn', hs₁, hana, rfl⟩

theorem passFrom_cons (i : ℕ) (insn : Instruction) (rest : List Instruction) (s : PassState) :
    passFrom env fin i (insn :: rest) s = s.step env fin i insn >>= passFrom env fin (i + 1) rest := by
  rw [passFrom, PassState.step]
  cases s.arrive env i insn with
  | error e => rfl
  | ok s₁ =>
    show (analyzeInstruction env fin i insn s₁.ctx >>= _) =
      (analyzeInstruction env fin i insn s₁.ctx >>= _) >>= _
    cases analyzeInstruction env fin i insn s₁.ctx with
    | error e => rfl
    | ok r => rfl

theorem passFrom_append (i : ℕ) (l₁ l₂ : List Instruction) (s : PassState) :
    passFrom env fin i (l₁ ++ l₂) s =
      passFrom env fin i l₁ s >>= passFrom env fin (i + l₁.length) l₂ := by
  induction l₁ generalizing i s with
  | nil => rfl
  | cons insn l₁ ih =>
    rw [cons_append, passFrom_cons, passFrom_cons]
    cases s.step env fin i insn with
    | error e => rfl
    | ok s₁ =>
      show passFrom env fin (i + 1) (l₁ ++ l₂) s₁ = passFrom env fin (i + 1) l₁ s₁ >>= _
      rw [ih, length_cons]
      congr 2
      omega

variable {code : List Instruction} {s' : PassState}

theorem passFrom_take_succ {i : ℕ} (hi : code[i]? = some insn)
    (h : passFrom env fin 0 (code.take (i + 1)) s = .ok s') :
    ∃ s₁, passFrom env fin 0 (code.take i) s = .ok s₁ ∧ s₁.step env fin i insn = .ok s' := by
  obtain ⟨hlt, -⟩ := List.getElem?_eq_some_iff.mp hi
  have htake : code.take (i + 1) = code.take i ++ [insn] := by
    rw [take_add_one, hi]
    rfl
  rw [htake, passFrom_append, length_take, Nat.min_eq_left hlt.le, Nat.zero_add] at h
  obtain ⟨s₁, hs₁, hlast⟩ := bind_eq_ok.mp h
  rw [passFrom_cons] at hlast
  obtain ⟨s₂, hs₂, heq⟩ := bind_eq_ok.mp hlast
  cases heq
  exact ⟨s₁, hs₁, hs₂⟩

theorem passFrom_take (h : passFrom env fin 0 code s = .ok s') (i : ℕ) :
    ∃ s₁, passFrom env fin 0 (code.take i) s = .ok s₁ := by
  rw [← take_append_drop i code, passFrom_append] at h
  obtain ⟨s₁, hs₁, -⟩ := bind_eq_ok.mp h
  exact ⟨s₁, hs₁⟩

theorem passFrom_step (h : passFrom env fin 0 code s = .ok s') {i : ℕ} (hi : code[i]? = some insn) :
    ∃ s₁ s₂, passFrom env fin 0 (code.take i) s = .ok s₁ ∧ s₁.step env fin i insn = .ok s₂ := by
  obtain ⟨s₂, hs₂⟩ := passFrom_take h (i + 1)
  obtain ⟨s₁, hs₁, hstep⟩ := passFrom_take_succ hi hs₂
  exact ⟨s₁, s₂, hs₁, hstep⟩

theorem analyzePasses_first {m : CodeMethod} {fuel : ℕ} {c : AnalysisCtx}
    (h : analyzePasses m env fuel fin c code = some (.ok s)) : ∃ it s₁, m.initIterator = .ok it ∧
      passFrom env fin 0 code ⟨c, it, true, [], []⟩ = .ok s₁ := by
  cases fuel with
  | zero => cases h
  | succ fuel =>
    rw [analyzePasses] at h
    split at h
    · cases h
    · rename_i it hit
      split at h
      · cases h
      · rename_i s₁ hs₁
        exact ⟨it, s₁, hit, hs₁⟩

inductive PassStart (m : CodeMethod) (env : AnalysisEnv) (c₀ : AnalysisCtx) :
    Bool → AnalysisCtx → List Instruction → Prop where
  | first : PassStart m env c₀ (!m.missingSmt) c₀ m.code
  | again {fin : Bool} {c : AnalysisCtx} {code : List Instruction} {it : FrameIterator}
      {s : PassState} (hstart : PassStart m env c₀ fin c code) (hit : m.initIterator = .ok it)
      (hpass : passFrom env fin 0 code ⟨c, it, true, [], []⟩ = .ok s)
      (hchanged : s.ctx.changed = true) :
      PassStart m env c₀ fin { s.ctx with changed := false } s.code
  | last {c : AnalysisCtx} {code : List Instruction} {it : FrameIterator} {s : PassState}
      (hstart : PassStart m env c₀ false c code) (hit : m.initIterator = .ok it)
      (hpass : passFrom env false 0 code ⟨c, it, true, [], []⟩ = .ok s)
      (hchanged : s.ctx.changed = false) : PassStart m env c₀ true s.ctx s.code

structure Visited (m : CodeMethod) (env : AnalysisEnv) (c₀ : AnalysisCtx) (fin : Bool)
    (code : List Instruction) (i : ℕ) (insn : Instruction) (s : PassState) : Prop where
  pass : ∃ c it, PassStart m env c₀ fin c code ∧ m.initIterator = .ok it ∧
    passFrom env fin 0 (code.take i) ⟨c, it, true, [], []⟩ = .ok s
  insn : code[i]? = some insn

section Invariant

variable {m : CodeMethod} {c₀ : AnalysisCtx} {Start : Bool → AnalysisCtx → List Instruction → Prop}
  {Inv : Bool → List Instruction → ℕ → PassState → Prop}

/-- An invariant of the steps: it holds where the first pass starts, is kept by each step and is
passed on from the end of a pass to the start of the next. -/
structure PassInvariant (m : CodeMethod) (env : AnalysisEnv) (c₀ : AnalysisCtx)
    (Start : Bool → AnalysisCtx → List Instruction → Prop)
    (Inv : Bool → List Instruction → ℕ → PassState → Prop) : Prop where
  first : Start (!m.missingSmt) c₀ m.code
  enter : ∀ fin c code it, Start fin c code → m.initIterator = .ok it →
    Inv fin code 0 ⟨c, it, true, [], []⟩
  step : ∀ fin code i insn s s', Visited m env c₀ fin code i insn s → Inv fin code i s →
    s.step env fin i insn = .ok s' → Inv fin code (i + 1) s'
  again : ∀ fin code s, Inv fin code code.length s → s.ctx.changed = true →
    Start fin { s.ctx with changed := false } s.code
  last : ∀ code s, Inv false code code.length s → s.ctx.changed = false → Start true s.ctx s.code

variable (Inv) in
/-- Within one pass, what holds at its start and is kept by each step holds throughout. -/
theorem PassStart.within {c : AnalysisCtx} {code : List Instruction} {it : FrameIterator}
    (hstart : PassStart m env c₀ fin c code) (hit : m.initIterator = .ok it)
    (hinit : Inv fin code 0 ⟨c, it, true, [], []⟩)
    (hstep : ∀ fin code i insn s s', Visited m env c₀ fin code i insn s → Inv fin code i s →
      s.step env fin i insn = .ok s' → Inv fin code (i + 1) s') {i : ℕ} (hi : i ≤ code.length)
    {s : PassState} (h : passFrom env fin 0 (code.take i) ⟨c, it, true, [], []⟩ = .ok s) :
    Inv fin code i s := by
  induction i generalizing s with
  | zero =>
    rw [take_zero] at h
    cases h
    exact hinit
  | succ i ih =>
    have hget : code[i]? = some (code.get ⟨i, hi⟩) := getElem?_eq_getElem hi
    obtain ⟨s₁, hs₁, hlast⟩ := passFrom_take_succ hget h
    exact hstep fin code i _ s₁ s ⟨⟨c, it, hstart, hit, hs₁⟩, hget⟩ (ih (Nat.le_of_lt hi) hs₁) hlast

/-- An invariant holds at the start and at the end of every pass. -/
theorem PassInvariant.start (hinv : PassInvariant m env c₀ Start Inv) {c : AnalysisCtx}
    {code : List Instruction} (h : PassStart m env c₀ fin c code) : Start fin c code ∧
      ∀ it s, m.initIterator = .ok it → passFrom env fin 0 code ⟨c, it, true, [], []⟩ = .ok s →
        Inv fin code code.length s := by
  have hend : ∀ {fin : Bool} {c : AnalysisCtx} {code : List Instruction},
      PassStart m env c₀ fin c code → Start fin c code → ∀ it s, m.initIterator = .ok it →
        passFrom env fin 0 code ⟨c, it, true, [], []⟩ = .ok s → Inv fin code code.length s := by
    intro fin c code hstart hs it s hit hpass
    rw [← take_length (l := code)] at hpass
    exact hstart.within Inv hit (hinv.enter fin c code it hs hit) hinv.step (Nat.le_refl _) hpass
  refine ⟨?_, hend h ?_⟩
  all_goals
    induction h with
    | first => exact hinv.first
    | again hstart hit hpass hchanged ih =>
      exact hinv.again _ _ _ (hend hstart ih _ _ hit hpass) hchanged
    | last hstart hit hpass hchanged ih =>
      exact hinv.last _ _ (hend hstart ih _ _ hit hpass) hchanged

theorem PassInvariant.visited (hinv : PassInvariant m env c₀ Start Inv) {code : List Instruction}
    {i : ℕ} {insn : Instruction} {s : PassState} (h : Visited m env c₀ fin code i insn s) :
    Inv fin code i s := by
  obtain ⟨⟨c, it, hstart, hit, hpass⟩, hget⟩ := h
  obtain ⟨hlt, -⟩ := List.getElem?_eq_some_iff.mp hget
  exact hstart.within Inv hit (hinv.enter fin c code it (hinv.start hstart).1 hit) hinv.step hlt.le
    hpass

end Invariant

/-- The result of the analysis is that of a last pass, which records and rewrites. -/
theorem analyzePasses_last {m : CodeMethod} {c₀ c : AnalysisCtx}
    {fuel : ℕ} (hstart : PassStart m env c₀ fin c code)
    (h : analyzePasses m env fuel fin c code = some (.ok s)) :
    ∃ c' code' it, PassStart m env c₀ true c' code' ∧ m.initIterator = .ok it ∧
      passFrom env true 0 code' ⟨c', it, true, [], []⟩ = .ok s := by
  induction fuel generalizing fin c code with
  | zero => cases h
  | succ fuel ih =>
    rw [analyzePasses] at h
    split at h
    · cases h
    · rename_i it hit
      split at h
      · cases h
      · rename_i s₁ hs₁
        split at h
        · rename_i hchanged
          exact ih (.again hstart hit hs₁ hchanged) h
        · rename_i hchanged
          split at h
          · rename_i hfin
            subst hfin
            cases h
            exact ⟨c, code, it, hstart, hit, hs₁⟩
          · rename_i hfin
            obtain rfl : fin = false := Bool.eq_false_iff.mpr hfin
            exact ih (.last hstart hit hs₁ (Bool.eq_false_iff.mpr hchanged)) h

end TraceJvm
