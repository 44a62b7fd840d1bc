import TraceJvm.AnalysisAgreement
import TraceJvm.Linkage

/-! How `analyze_method_code` ends: what it leaves in the error string, what it frees and whether the
method counts as analysed, and what the loop of `link_class` over the methods makes of that. -/
namespace TraceJvm

/-- The variables of `analyze_method_code` that own memory. -/
inductive AnalysisBuffer where
  | stackEntries
  | localsEntries
  | swizzle
  | iterator
  | knownStates

/-- What a call leaves. `error` is the text that was stored through the error pointer, if one was,
and `analysed` says that `method->code_analysis` is set. -/
structure AnalysisReport where
  result : ℤ
  error : Option String
  analysed : Bool
  initialised : List AnalysisBuffer
  freed : List AnalysisBuffer

/-- A call returns, or `CHECK` or `UNREACHABLE` stops the process. -/
inductive AnalysisExit where
  | returns (r : AnalysisReport)
  | stops

/-- The label `inval`, which every exit after `locals_on_method_entry` goes through. -/
def CodeMethod.inval (m : CodeMethod) (result : ℤ) (error : Option String) (analysed : Bool)
    (initialised : List AnalysisBuffer) : AnalysisExit :=
  .returns
    { result := result
      error := error
      analysed := analysed
      initialised := initialised
      freed := [.iterator, .stackEntries, .localsEntries, .swizzle] ++
        if m.missingSmt && !m.code.isEmpty then [.knownStates] else [] }

/-- `analyze_method_code`, as `link_class` sees it; `analysed` says that `method->code_analysis` is
set before the call. -/
def CodeMethod.analyze (fuel : ℕ) (m : CodeMethod) (analysed : Bool) : Option AnalysisExit :=
  if analysed then some (.returns ⟨0, none, true, [], []⟩)
  else
    match m.localsOnMethodEntry with
    | .error _ =>
      some (.returns ⟨-1, none, false, [.localsEntries, .swizzle], [.localsEntries, .swizzle]⟩)
    | .ok (swizzle, locals) =>
      let initialised : List AnalysisBuffer := [.localsEntries, .swizzle, .stackEntries]
      if m.lvt.any fun i => m.maxLocals ≤ i then some (m.inval (-1) none false initialised)
      else
        -- from here on `method->code_analysis` is set
        let initialised := initialised ++ (if m.missingSmt then [.knownStates] else []) ++ [.iterator]
        let env := m.analysisEnv swizzle
        let c : AnalysisCtx := ⟨[], locals, [], fun _ => none, fun _ => none, false⟩
        let c := if m.missingSmt then c.fillExceptionHandlers env else c
        match analyzePasses m env fuel (!m.missingSmt) c m.code with
        | none => none
        | some (.ok _) => some (m.inval 0 none true initialised)
        | some (.error e) =>
          match e.message with
          | some msg => some (m.inval (-1) (some msg) true initialised)
          | none => some .stops

/-- What the loop of `link_class` over the methods leaves: the state of the class and, where a
`VerifyError` was raised, its message. A message `none` is read from memory that nothing has
written. -/
structure MethodsLinked where
  state : ClassState
  verifyError : Option (Option String)
  result : ℤ

/-- The loop of `link_class` over the methods, each with the mark that it is analysed already. -/
def linkMethods (fuel : ℕ) : List (CodeMethod × Bool) → Option MethodsLinked
  | [] => some ⟨.linked, none, 0⟩
  | (m, analysed) :: ms =>
    match m.analyze fuel analysed with
    | some (.returns r) =>
      if r.result ≠ 0 then some ⟨.linkageError, some r.error, -1⟩ else linkMethods fuel ms
    | _ => none

/-- A failed analysis is reported cleanly: there is a message, what is freed was initialised,
`link_class` raises a `VerifyError` with the message and marks the class, and the method does not
count as analysed in a later attempt. -/
structure ReportedCleanly (fuel : ℕ) (m : CodeMethod) (r : AnalysisReport) : Prop where
  message : r.error ≠ none
  frees : ∀ b ∈ r.freed, b ∈ r.initialised
  raises : ∀ ms, ∃ msg, linkMethods fuel ((m, false) :: ms) = some ⟨.linkageError, some (some msg), -1⟩
  unmarked : r.analysed = false

section Exits

variable {fuel : ℕ} {m : CodeMethod} {r : AnalysisReport}

theorem analyze_failed (h : m.analyze fuel false = some (.returns r)) (hfail : r.result ≠ 0) :
    (r.error = none ∧ r.analysed = false) ∨
      ((∃ msg, r.error = some msg) ∧ r.analysed = true ∧ ∀ b ∈ r.freed, b ∈ r.initialised) := by
  unfold CodeMethod.analyze at h
  rw [if_neg (by decide)] at h
  split at h
  · cases h
    exact .inl ⟨rfl, rfl⟩
  · dsimp only at h
    split at h
    · cases h
      exact .inl ⟨rfl, rfl⟩
    · split at h
      · cases h
      · cases h
        exact absurd rfl hfail
      · split at h
        · rename_i msg _
          cases h
          refine .inr ⟨⟨msg, rfl⟩, rfl, ?_⟩
          cases m.missingSmt <;> cases m.code.isEmpty <;> simp
        · cases h

/-- No failure of the analysis is reported cleanly: each one either leaves the error string unset or
leaves the method marked as analysed. -/
theorem verifyFailure_not_reportedCleanly (h : m.analyze fuel false = some (.returns r))
    (hfail : r.result ≠ 0) : ¬ ReportedCleanly fuel m r := by
  intro hclean
  rcases analyze_failed h hfail with ⟨herr, -⟩ | ⟨-, hmark, -⟩
  · exact hclean.message herr
  · rw [hclean.unmarked] at hmark
    cases hmark

end Exits

def popEmpty : CodeMethod where
  maxStack := 1
  maxLocals := 0
  code := [{ kind := .pop, originalPc := 0 }, { kind := .returnVoid, originalPc := 1 }]
  exceptionTable := []
  lvt := []
  stackMapTable := none
  pc_zero := by simp
  pc_lt := by decide
  isStatic := true
  isCtor := false
  descriptor := .empty
  missingSmt := false
  missing_eq := nofun

theorem popEmpty_not_reportedCleanly :
    ∃ r, popEmpty.analyze 1 false = some (.returns r) ∧ r.result ≠ 0 ∧
      ¬ ReportedCleanly 1 popEmpty r := by
  refine ⟨_, rfl, by decide, ?_⟩
  exact verifyFailure_not_reportedCleanly (show popEmpty.analyze 1 false = _ from rfl) (by decide)

/-- The failed analysis leaves the method marked, and the next call returns 0. -/
theorem popEmpty_marked :
    ∃ r, popEmpty.analyze 1 false = some (.returns r) ∧ r.result = -1 ∧
      r.error = some "Stack underflow:" ∧ ¬ ReportedCleanly 1 popEmpty r ∧
      popEmpty.analyze 1 r.analysed = some (.returns ⟨0, none, true, [], []⟩) := by
  refine ⟨_, rfl, rfl, rfl, fun hclean => ?_, rfl⟩
  exact Bool.noConfusion (show true = false from hclean.unmarked)

end TraceJvm
