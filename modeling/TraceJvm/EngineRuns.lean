import TraceJvm.Lib.Transition
import TraceJvm.StringBridge

/-! The runs of an engine: the queue of operations, the capture of output, and the record of
executions and taints that decides when the virtual machine is to be retired. -/
namespace TraceJvm

open Transition Function Option

/-! ### Output -/

/-- The state of a `TextDecoder` for UTF-8. -/
structure Utf8Decoder where
  codePoint : ℕ
  bytesSeen : ℕ
  bytesNeeded : ℕ
  lowerBoundary : ℕ
  upperBoundary : ℕ
  bomSeen : Bool

namespace Utf8Decoder

def fresh : Utf8Decoder := ⟨0, 0, 0, 0x80, 0xBF, false⟩

def reset (d : Utf8Decoder) : Utf8Decoder := { fresh with bomSeen := d.bomSeen }

def lead (d : Utf8Decoder) (byte : ℕ) : Utf8Decoder × List ℕ :=
  if byte ≤ 0x7F then (d, [byte])
  else if 0xC2 ≤ byte ∧ byte ≤ 0xDF then
    ({ d with codePoint := byte % 0x20, bytesNeeded := 1 }, [])
  else if 0xE0 ≤ byte ∧ byte ≤ 0xEF then
    ({ d with
        codePoint := byte % 0x10
        bytesNeeded := 2
        lowerBoundary := if byte = 0xE0 then 0xA0 else d.lowerBoundary
        upperBoundary := if byte = 0xED then 0x9F else d.upperBoundary }, [])
  else if 0xF0 ≤ byte ∧ byte ≤ 0xF4 then
    ({ d with
        codePoint := byte % 0x08
        bytesNeeded := 3
        lowerBoundary := if byte = 0xF0 then 0x90 else d.lowerBoundary
        upperBoundary := if byte = 0xF4 then 0x8F else d.upperBoundary }, [])
  else (d, [0xFFFD])

/-- One byte. A byte that cannot continue the character starts the next one. -/
def accept (d : Utf8Decoder) (byte : ℕ) : Utf8Decoder × List ℕ :=
  if d.bytesNeeded = 0 then d.lead byte
  else if byte < d.lowerBoundary ∨ d.upperBoundary < byte then
    ((d.reset.lead byte).1, 0xFFFD :: (d.reset.lead byte).2)
  else if d.bytesSeen + 1 = d.bytesNeeded then
    (d.reset, [d.codePoint * 0x40 + byte % 0x40])
  else
    ({ d with
        codePoint := d.codePoint * 0x40 + byte % 0x40
        bytesSeen := d.bytesSeen + 1
        lowerBoundary := 0x80
        upperBoundary := 0xBF }, [])

def acceptAll (d : Utf8Decoder) : List UInt8 → Utf8Decoder × List ℕ
  | [] => (d, [])
  | b :: bytes =>
    let rest := (d.accept b.toNat).1.acceptAll bytes
    (rest.1, (d.accept b.toNat).2 ++ rest.2)

/-- `decode(bytes, { stream: true })`. A byte order mark at the start is dropped. -/
def decode (d : Utf8Decoder) (bytes : List UInt8) : Utf8Decoder × JsString :=
  let (next, scalars) := d.acceptAll bytes
  if d.bomSeen || scalars.isEmpty then (next, scalars.flatMap utf16Units)
  else
    ({ next with bomSeen := true },
      (if scalars.head? = some 0xFEFF then scalars.tail else scalars).flatMap utf16Units)

/-- `decode()`: what is left of an unfinished character. The decoder starts afresh. -/
def flush (d : Utf8Decoder) : JsString := if d.bytesNeeded = 0 then [] else [0xFFFD]

end Utf8Decoder

def maxSafeInteger : ℕ := 9007199254740991

def utf8ByteLength : JsString → ℕ
  | [] => 0
  | [code] => if code < 0x80 then 1 else if code < 0x800 then 2 else 3
  | code :: next :: rest =>
    if code < 0x80 then 1 + utf8ByteLength (next :: rest)
    else if code < 0x800 then 2 + utf8ByteLength (next :: rest)
    else if isLeadSurrogate code && isTrailSurrogate next then 4 + utf8ByteLength rest
    else 3 + utf8ByteLength (next :: rest)

/-- `TraceJVMOutputBudget` -/
structure OutputBudget where
  usedBytes : ℕ
  maximumBytes : ℕ
  deriving DecidableEq

/-- The budget after a chunk; `none` if it throws. -/
def OutputBudget.consume (b : OutputBudget) (chunk : JsString) : Option OutputBudget :=
  let next := b.usedBytes + utf8ByteLength chunk
  if maxSafeInteger < next ∨ b.maximumBytes < next then none else some { b with usedBytes := next }

/-- `budget?.consume(chunk)`, then the listener; `none` if either throws. -/
def deliver (budget : Option OutputBudget) (chunk : JsString) (listenerThrows : Bool) :
    Option (Option OutputBudget) :=
  if chunk = [] then some budget
  else
    (match budget with
      | none => some none
      | some b => (b.consume chunk).map some).filter fun _ => !listenerThrows

/-! ### Isolation reports -/

inductive IsolationStatus where
  | clean
  | tainted
  deriving DecidableEq

structure IsolationReport where
  status : IsolationStatus
  restored : List String
  taintReasons : List String
  hardBoundaryRecommended : Bool

def bridgeFailed : IsolationReport :=
  ⟨.tainted, [], ["java-bridge-failed-before-isolation-report"], true⟩

def labelled (label : String) (lines : List String) : List String :=
  (lines.filter (·.startsWith label)).map fun line => (line.drop label.length).toString

def decodeIsolationReport (value : Option String) : IsolationReport :=
  let lines := ((value.getD "tainted\ntaint:isolation-report-missing").splitOn "\n").filter (· ≠ "")
  let status : IsolationStatus := if lines.head? = some "clean" then .clean else .tainted
  let taintReasons := labelled "taint:" lines
  { status := status
    restored := labelled "restored:" lines
    taintReasons :=
      if status = .tainted ∧ taintReasons = [] then ["isolation-report-malformed"] else taintReasons
    hardBoundaryRecommended := status = .tainted }

/-! ### The engine -/

structure EngineOptions where
  maxOutputBytes : ℕ
  retirementAfterExecutions : Option ℕ
  safe : maxOutputBytes ≤ maxSafeInteger

/-- Where a call of `runPromise` stands. -/
inductive RunPhase where
  /-- The call has not been made. -/
  | absent
  /-- Awaits the operation before it. -/
  | queued
  /-- Awaits the runtime. -/
  | starting
  /-- Awaits `runCompiled`. -/
  | inJava
  /-- Awaits `takeLastIsolationReport`. -/
  | reporting
  | ended
  deriving DecidableEq

structure EngineVm where
  disposed : Bool
  executions : ℕ
  tainted : Bool
  stdoutDecoder : Utf8Decoder
  stderrDecoder : Utf8Decoder
  /-- Set, with the lists and the listeners, while the output of a run is captured. -/
  activeOutputBudget : Option OutputBudget
  runs : ℕ → RunPhase
  /-- The number of operations that have been queued. -/
  issued : ℕ
  /-- The operations whose promise is resolved. -/
  released : ℕ → Bool
  /-- The isolation of each run that has come back from Java, latest first. -/
  returned : List IsolationReport

inductive EngineCall where
  /-- `runPromise` is called; `valid` if the resources of the request pass validation. -/
  | run (valid : Bool)
  /-- The operation before the run has been released. -/
  | turn (i : ℕ) (aborted : Bool)
  /-- The runtime has been loaded or not, and the inputs of the run can be installed or not. -/
  | runtime (i : ℕ) (loaded aborted installs : Bool)
  | stdout (bytes : List UInt8)
  | stderr (bytes : List UInt8)
  /-- `runCompiled` returns or throws. The listeners may throw at the last of the output. -/
  | bridge (i : ℕ) (returns stdoutThrows stderrThrows : Bool)
  /-- `takeLastIsolationReport` returns a report, `null`, or throws. -/
  | report (i : ℕ) (value : Option (Option String)) (stdoutThrows stderrThrows : Bool)
  | dispose

namespace EngineVm

def initial : EngineVm :=
  ⟨false, 0, false, .fresh, .fresh, none, fun _ => .absent, 0, fun _ => false, []⟩

def retirementRecommended (s : EngineVm) (o : EngineOptions) : Bool :=
  s.tainted || o.retirementAfterExecutions.getD 8 ≤ s.executions

/-- The outer `finally`: the run is over and its promise is resolved. -/
def release (s : EngineVm) (i : ℕ) : EngineVm :=
  { s with
    runs := update s.runs i .ended
    released := update s.released i true }

def beginOutputCapture (s : EngineVm) (o : EngineOptions) : EngineVm :=
  { s with activeOutputBudget := some ⟨0, o.maxOutputBytes⟩ }

/-- The last of the output; `false` if it throws. -/
def finishOutputCapture (s : EngineVm) (stdoutThrows stderrThrows : Bool) : Bool × EngineVm :=
  (((deliver s.activeOutputBudget s.stdoutDecoder.flush stdoutThrows).bind fun budget =>
      deliver budget s.stderrDecoder.flush stderrThrows).isSome,
    { s with stdoutDecoder := .fresh, stderrDecoder := .fresh, activeOutputBudget := none })

/-- From the inner `finally` to the end of the run. -/
def finishRun (s : EngineVm) (i : ℕ) (isolation : IsolationReport)
    (stdoutThrows stderrThrows : Bool) : EngineVm :=
  let (completed, s₁) := s.finishOutputCapture stdoutThrows stderrThrows
  let s₂ := { s₁ with returned := isolation :: s₁.returned }
  if completed then
    { s₂ with
      executions := s₂.executions + 1
      tainted := s₂.tainted || decide (isolation.status = .tainted) : EngineVm }.release i
  else s₂.release i

def capture (budget : Option OutputBudget) (chunk : JsString) : Option OutputBudget :=
  (deliver budget chunk false).getD budget

end EngineVm

open EngineVm

def engineStep (o : EngineOptions) (s : EngineVm) : EngineCall → Option EngineVm
  | .run valid =>
    if s.disposed || !valid then some s
    else some { s with runs := update s.runs s.issued .queued, issued := s.issued + 1 }
  | .turn i aborted =>
    if s.runs i = .queued ∧ (i = 0 ∨ s.released (i - 1) = true) then
      if aborted || s.disposed then some (s.release i)
      else some { s with runs := update s.runs i .starting }
    else none
  | .runtime i loaded aborted installs =>
    if s.runs i = .starting then
      if loaded && !aborted && installs then
        some { s.beginOutputCapture o with runs := update s.runs i .inJava }
      else some (s.release i)
    else none
  | .stdout bytes =>
    if s.activeOutputBudget = none then some s
    else
      some { s with
        stdoutDecoder := (s.stdoutDecoder.decode bytes).1
        activeOutputBudget := capture s.activeOutputBudget (s.stdoutDecoder.decode bytes).2 }
  | .stderr bytes =>
    if s.activeOutputBudget = none then some s
    else
      some { s with
        stderrDecoder := (s.stderrDecoder.decode bytes).1
        activeOutputBudget := capture s.activeOutputBudget (s.stderrDecoder.decode bytes).2 }
  | .bridge i returns stdoutThrows stderrThrows =>
    if s.runs i = .inJava then
      if returns then some { s with runs := update s.runs i .reporting }
      else some (s.finishRun i bridgeFailed stdoutThrows stderrThrows)
    else none
  | .report i value stdoutThrows stderrThrows =>
    if s.runs i = .reporting then
      some (s.finishRun i ((value.map decodeIsolationReport).getD bridgeFailed) stdoutThrows
        stderrThrows)
    else none
  | .dispose =>
    some (if s.disposed then s else { s with disposed := true, activeOutputBudget := none })

namespace EngineVm

variable {o : EngineOptions} {s s' : EngineVm} {i : ℕ} {stdoutThrows stderrThrows : Bool}

/-! ### The last of the output -/

/-- There is room for more bytes of output, or nobody counts them any more. -/
def Room : Option OutputBudget → ℕ → Prop
  | none, _ => True
  | some b, n => b.usedBytes + n ≤ b.maximumBytes

/-- No stream ends within a character, or the replacement character that stands for the rest fits
and its listener takes it. -/
structure Flushes (s : EngineVm) (stdoutThrows stderrThrows : Bool) : Prop where
  stdout : s.stdoutDecoder.bytesNeeded ≠ 0 → Room s.activeOutputBudget 3 ∧ stdoutThrows = false
  stderr : s.stderrDecoder.bytesNeeded ≠ 0 →
    Room s.activeOutputBudget (if s.stdoutDecoder.bytesNeeded ≠ 0 then 6 else 3) ∧
      stderrThrows = false

def Bounded (s : EngineVm) : Prop :=
  ∀ b, s.activeOutputBudget = some b → b.maximumBytes ≤ maxSafeInteger

def replaced (budget : Option OutputBudget) : Option OutputBudget :=
  budget.map fun b => { b with usedBytes := b.usedBytes + 3 }

theorem deliver_replacement {budget budget' : Option OutputBudget} {throws : Bool}
    (h : ∀ b, budget = some b → b.maximumBytes ≤ maxSafeInteger) :
    deliver budget [0xFFFD] throws = some budget' ↔
      (Room budget 3 ∧ throws = false) ∧ budget' = replaced budget := by
  have hlength : utf8ByteLength [0xFFFD] = 3 := by decide
  unfold deliver
  rw [if_neg (List.cons_ne_nil _ _), filter_eq_some_iff, Bool.not_eq_true']
  cases budget with
  | none =>
    simp only [Room, replaced, map_none, some.injEq, true_and]
    exact ⟨fun ⟨hb, ht⟩ => ⟨ht, hb.symm⟩, fun ⟨ht, hb⟩ => ⟨hb.symm, ht⟩⟩
  | some b =>
    have hmax := h b rfl
    simp only [Room, replaced, map_some, OutputBudget.consume, hlength]
    split
    · rename_i hover
      have hroom : ¬ b.usedBytes + 3 ≤ b.maximumBytes := by omega
      simp [hroom]
    · rename_i hfits
      have hroom : b.usedBytes + 3 ≤ b.maximumBytes := by omega
      simp only [hroom, true_and, map_some, some.injEq]
      exact ⟨fun ⟨hb, ht⟩ => ⟨ht, hb.symm⟩, fun ⟨ht, hb⟩ => ⟨hb.symm, ht⟩⟩

variable {budget : Option OutputBudget}

theorem room_replaced : Room (replaced budget) 3 ↔ Room budget 6 := by
  cases budget with
  | none => rfl
  | some b =>
    show b.usedBytes + 3 + 3 ≤ b.maximumBytes ↔ b.usedBytes + 6 ≤ b.maximumBytes
    omega

theorem deliver_flush {budget budget' : Option OutputBudget} {d : Utf8Decoder} {throws : Bool}
    (h : ∀ b, budget = some b → b.maximumBytes ≤ maxSafeInteger) :
    deliver budget d.flush throws = some budget' ↔
      (d.bytesNeeded ≠ 0 → Room budget 3 ∧ throws = false) ∧
        budget' = if d.bytesNeeded = 0 then budget else replaced budget := by
  unfold Utf8Decoder.flush
  split
  · rename_i hneeded
    simp only [deliver, if_true, hneeded, ne_eq, not_true_eq_false, false_implies, true_and,
      some.injEq]
    exact eq_comm
  · rename_i hneeded
    rw [deliver_replacement h]
    simp only [ne_eq, hneeded, not_false_eq_true, true_implies]

theorem room_flush {d : Utf8Decoder} :
    Room (if d.bytesNeeded = 0 then budget else replaced budget) 3 ↔
      Room budget (if d.bytesNeeded ≠ 0 then 6 else 3) := by
  by_cases hneeded : d.bytesNeeded = 0
  · rw [if_pos hneeded, if_neg (not_not.mpr hneeded)]
  · rw [if_neg hneeded, if_pos hneeded, room_replaced]

theorem bounded_flush {d : Utf8Decoder}
    (h : ∀ b, budget = some b → b.maximumBytes ≤ maxSafeInteger) :
    ∀ b, (if d.bytesNeeded = 0 then budget else replaced budget) = some b →
      b.maximumBytes ≤ maxSafeInteger := by
  intro b hb
  split at hb
  · exact h b hb
  · obtain ⟨b', hb', rfl⟩ := map_eq_some_iff.mp hb
    exact h b' hb'

/-- Exactly when the end of the capture does not throw. -/
theorem finishOutputCapture_iff (h : s.Bounded) :
    (s.finishOutputCapture stdoutThrows stderrThrows).1 = true ↔
      s.Flushes stdoutThrows stderrThrows := by
  unfold finishOutputCapture
  dsimp only
  rw [isSome_iff_exists]
  constructor
  · rintro ⟨final, hfinal⟩
    obtain ⟨budget, hout, herr⟩ := bind_eq_some_iff.mp hfinal
    obtain ⟨hstdout, rfl⟩ := (deliver_flush h).mp hout
    refine ⟨hstdout, fun hneeded => ?_⟩
    have hstderr := ((deliver_flush (bounded_flush h)).mp herr).1 hneeded
    exact ⟨room_flush.mp hstderr.1, hstderr.2⟩
  · intro hflush
    have hout := (deliver_flush h (d := s.stdoutDecoder)).mpr ⟨hflush.stdout, rfl⟩
    have herr := (deliver_flush (bounded_flush h (d := s.stdoutDecoder))
      (d := s.stderrDecoder)).mpr ⟨fun hneeded => ⟨room_flush.mpr (hflush.stderr hneeded).1,
        (hflush.stderr hneeded).2⟩, rfl⟩
    exact ⟨_, bind_eq_some_iff.mpr ⟨_, hout, herr⟩⟩

/-! ### The record of executions -/

def Passes (s : EngineVm) : EngineCall → Prop
  | .bridge _ false stdoutThrows stderrThrows => s.Flushes stdoutThrows stderrThrows
  | .report _ _ stdoutThrows stderrThrows => s.Flushes stdoutThrows stderrThrows
  | _ => True

/-- Every run that has come back from Java is counted, its taint is kept, and the operation after
it may start. -/
structure Booked (o : EngineOptions) (s : EngineVm) : Prop where
  counted : s.executions = s.returned.length
  marked : ∀ r ∈ s.returned, r.status ≠ .clean → s.tainted = true
  recommended : ∀ r ∈ s.returned, r.status ≠ .clean → s.retirementRecommended o = true
  released : ∀ i, s.runs i = .ended → s.released i = true

structure Sound (s : EngineVm) : Prop where
  bounded : s.Bounded
  counted : s.executions ≤ s.returned.length
  resolved : ∀ i, s.runs i = .ended → s.released i = true

theorem sound_initial : Sound initial := ⟨nofun, Nat.le_refl _, nofun⟩

theorem capture_bounded {chunk : JsString}
    (h : ∀ b, budget = some b → b.maximumBytes ≤ maxSafeInteger) :
    ∀ b, capture budget chunk = some b → b.maximumBytes ≤ maxSafeInteger := by
  intro b hb
  unfold capture deliver at hb
  split at hb
  · exact h b hb
  · cases budget with
    | none => cases hb
    | some b₀ =>
      have hmax := h b₀ rfl
      simp only [OutputBudget.consume] at hb
      split at hb
      · cases hb
        exact hmax
      · cases hb
        exact hmax

def Resolved (s : EngineVm) : Prop := ∀ j, s.runs j = .ended → s.released j = true

theorem Resolved.update (h : s.Resolved) {phase : RunPhase} (hphase : phase ≠ .ended) :
    ∀ j, update s.runs i phase j = .ended → s.released j = true := by
  intro j hj
  by_cases heq : j = i
  · rw [heq, update_self] at hj
    exact absurd hj hphase
  · rw [update_of_ne heq] at hj
    exact h j hj

theorem Resolved.release (h : s.Resolved) : (s.release i).Resolved := by
  intro j hj
  by_cases heq : j = i
  · rw [heq]
    exact update_self ..
  · have hold : s.runs j = .ended := (update_of_ne heq _ _).symm.trans hj
    exact (update_of_ne heq _ _).trans (h j hold)

theorem finishRun_passed (isolation : IsolationReport)
    (h : (s.finishOutputCapture stdoutThrows stderrThrows).1 = true) :
    (s.finishRun i isolation stdoutThrows stderrThrows).executions = s.executions + 1 ∧
      (s.finishRun i isolation stdoutThrows stderrThrows).tainted =
        (s.tainted || decide (isolation.status = .tainted)) := by
  unfold finishRun
  simp only [h, if_true]
  exact ⟨rfl, rfl⟩

theorem finishRun_failed {isolation : IsolationReport}
    (h : (s.finishOutputCapture stdoutThrows stderrThrows).1 = false) :
    (s.finishRun i isolation stdoutThrows stderrThrows).executions = s.executions := by
  unfold finishRun
  simp only [h]
  rfl

theorem finishRun_rest (s : EngineVm) (i : ℕ) (isolation : IsolationReport)
    (stdoutThrows stderrThrows : Bool) :
    (s.finishRun i isolation stdoutThrows stderrThrows).returned = isolation :: s.returned ∧
      (s.finishRun i isolation stdoutThrows stderrThrows).activeOutputBudget = none ∧
      (s.Resolved → (s.finishRun i isolation stdoutThrows stderrThrows).Resolved) := by
  unfold finishRun
  dsimp only
  split <;> exact ⟨rfl, rfl, Resolved.release⟩

inductive Effect (s : EngineVm) (call : EngineCall) (s' : EngineVm) : Prop where
  | other (executions : s'.executions = s.executions) (tainted : s'.tainted = s.tainted)
      (returned : s'.returned = s.returned) (bounded : s.Bounded → s'.Bounded)
      (resolved : s.Resolved → s'.Resolved) (passes : s.Passes call)
  | finish (i : ℕ) (isolation : IsolationReport) (stdoutThrows stderrThrows : Bool)
      (state : s' = s.finishRun i isolation stdoutThrows stderrThrows)
      (passes : s.Passes call ↔ s.Flushes stdoutThrows stderrThrows)

variable {call : EngineCall}

theorem engineStep_effect (h : engineStep o s call = some s') : s.Effect call s' := by
  cases call with
  | run valid =>
    rw [engineStep] at h
    split at h
    · cases h
      exact .other rfl rfl rfl id id trivial
    · cases h
      exact .other rfl rfl rfl id (fun hs => hs.update nofun) trivial
  | turn i aborted =>
    rw [engineStep, ite_none_right_eq_some] at h
    obtain ⟨-, h⟩ := h
    split at h
    · cases h
      exact .other rfl rfl rfl id Resolved.release trivial
    · cases h
      exact .other rfl rfl rfl id (fun hs => hs.update nofun) trivial
  | runtime i loaded aborted installs =>
    rw [engineStep, ite_none_right_eq_some] at h
    obtain ⟨-, h⟩ := h
    split at h
    · cases h
      have hbounded : ∀ b, some (OutputBudget.mk 0 o.maxOutputBytes) = some b →
          b.maximumBytes ≤ maxSafeInteger := by
        rintro b ⟨⟩
        exact o.safe
      exact .other rfl rfl rfl (fun _ => hbounded) (fun hs => hs.update nofun) trivial
    · cases h
      exact .other rfl rfl rfl id Resolved.release trivial
  | stdout bytes | stderr bytes =>
    rw [engineStep] at h
    split at h
    · cases h
      exact .other rfl rfl rfl id id trivial
    · cases h
      exact .other rfl rfl rfl capture_bounded id trivial
  | bridge i returns stdoutThrows stderrThrows =>
    rw [engineStep, ite_none_right_eq_some] at h
    obtain ⟨-, h⟩ := h
    cases returns with
    | true =>
      cases h
      exact .other rfl rfl rfl id (fun hs => hs.update nofun) trivial
    | false =>
      cases h
      exact .finish i bridgeFailed stdoutThrows stderrThrows rfl Iff.rfl
  | report i value stdoutThrows stderrThrows =>
    rw [engineStep, ite_none_right_eq_some] at h
    obtain ⟨-, h⟩ := h
    cases h
    exact .finish i _ stdoutThrows stderrThrows rfl Iff.rfl
  | dispose =>
    cases h
    split
    · exact .other rfl rfl rfl id id trivial
    · exact .other rfl rfl rfl (fun _ => nofun) id trivial

theorem Sound.step (h : engineStep o s call = some s') (hs : s.Sound) : s'.Sound := by
  have hcounted := hs.counted
  cases engineStep_effect h with
  | other hexecutions htainted hreturned hbounded hresolved hpasses =>
    refine ⟨hbounded hs.bounded, ?_, hresolved hs.resolved⟩
    rwa [hexecutions, hreturned]
  | finish i isolation stdoutThrows stderrThrows hstate hpasses =>
    subst hstate
    obtain ⟨hreturned, hbudget, hresolved⟩ :=
      finishRun_rest s i isolation stdoutThrows stderrThrows
    refine ⟨fun b hb => ?_, ?_, hresolved hs.resolved⟩
    · rw [hbudget] at hb
      cases hb
    · rw [hreturned, List.length_cons]
      cases hdone : (s.finishOutputCapture stdoutThrows stderrThrows).1 with
      | true =>
        rw [(finishRun_passed isolation hdone).1]
        omega
      | false =>
        rw [finishRun_failed hdone]
        omega

theorem recommended_of_tainted (h : s.tainted = true) : s.retirementRecommended o = true := by
  rw [retirementRecommended, h, Bool.true_or]

/-- A step whose output passes keeps the record complete. -/
theorem Booked.step (hbooked : s.Booked o)
    (h : engineStep o s call = some s') (hs : s.Sound) (hpasses : s.Passes call) :
    s'.Booked o := by
  have hresolved := (hs.step h).resolved
  cases engineStep_effect h with
  | other hexecutions htainted hreturned _ _ _ =>
    have hmarked : ∀ r ∈ s'.returned, r.status ≠ .clean → s'.tainted = true := by
      rw [hreturned, htainted]
      exact hbooked.marked
    refine ⟨by rw [hexecutions, hreturned, hbooked.counted], hmarked, ?_, hresolved⟩
    exact fun r hr hstatus => recommended_of_tainted (hmarked r hr hstatus)
  | finish i isolation stdoutThrows stderrThrows hstate hiff =>
    have hdone := (finishOutputCapture_iff hs.bounded).mpr (hiff.mp hpasses)
    have hreturned := (finishRun_rest s i isolation stdoutThrows stderrThrows).1
    obtain ⟨hexecutions, htainted⟩ := finishRun_passed (i := i) isolation hdone
    rw [← hstate] at hreturned hexecutions htainted
    have hmarked : ∀ r ∈ s'.returned, r.status ≠ .clean → s'.tainted = true := by
      intro r hr hstatus
      rw [htainted]
      rw [hreturned] at hr
      rcases List.mem_cons.mp hr with rfl | hr
      · cases hr : r.status with
        | clean => exact absurd hr hstatus
        | tainted => simp
      · rw [hbooked.marked r hr hstatus, Bool.true_or]
    refine ⟨?_, hmarked, fun r hr hstatus => recommended_of_tainted (hmarked r hr hstatus),
      hresolved⟩
    rw [hexecutions, hreturned, List.length_cons, hbooked.counted]

/-- A run that the count has missed stays missed. -/
theorem behind_step (h : engineStep o s call = some s') (hs : s.Sound)
    (hbehind : s.executions < s.returned.length ∨ ¬ s.Passes call) :
    s'.executions < s'.returned.length := by
  have hcounted := hs.counted
  cases engineStep_effect h with
  | other hexecutions htainted hreturned _ _ hpasses =>
    rw [hexecutions, hreturned]
    exact hbehind.resolve_right (not_not.mpr hpasses)
  | finish i isolation stdoutThrows stderrThrows hstate hiff =>
    subst hstate
    rw [(finishRun_rest s i isolation stdoutThrows stderrThrows).1, List.length_cons]
    cases hdone : (s.finishOutputCapture stdoutThrows stderrThrows).1 with
    | true =>
      have hpasses := hiff.mpr ((finishOutputCapture_iff hs.bounded).mp hdone)
      have hlt := hbehind.resolve_right (not_not.mpr hpasses)
      rw [(finishRun_passed isolation hdone).1]
      omega
    | false =>
      rw [finishRun_failed hdone]
      omega

theorem sound_of_run {w : List EngineCall} (h : run (engineStep o) initial w = some s) : s.Sound :=
  (reachable_of_run h).invariant Sound sound_initial fun _ _ _ hsound _ hstep => hsound.step hstep

/-- In every run of the engine, the record is complete exactly if the last of the output has passed
at the end of every execution. -/
theorem bookkeeping_iff (o : EngineOptions) {w : List EngineCall} {s : EngineVm}
    (h : run (engineStep o) initial w = some s) :
    s.Booked o ↔ Along (engineStep o) Passes initial w := by
  constructor
  · intro hbooked before call after s₁ hw hbefore
    by_contra hfails
    rw [hw, run_append, hbefore, bind_some] at h
    obtain ⟨s₂, hstep, hafter⟩ := bind_eq_some_iff.mp h
    have hsound := sound_of_run hbefore
    have hbehind := (reachable_of_run hafter).invariant
      (fun s => s.Sound ∧ s.executions < s.returned.length)
      ⟨hsound.step hstep, behind_step hstep hsound (.inr hfails)⟩
      (fun _ _ _ ⟨hs, hlt⟩ _ hnext => ⟨hs.step hnext, behind_step hnext hs (.inl hlt)⟩)
    have hcounted := hbooked.counted
    omega
  · intro halong
    have hinitial : initial.Booked o := ⟨rfl, nofun, nofun, nofun⟩
    exact ((runs_of_along h halong).invariant (fun s => s.Sound ∧ s.Booked o)
      ⟨sound_initial, hinitial⟩ (fun _ _ _ ⟨hs, hb⟩ hpasses hstep =>
        ⟨hs.step hstep, hb.step hstep hs hpasses⟩)).2

def exampleOptions : EngineOptions := ⟨16, none, by decide⟩

/-- A run whose output ends with a whole character is counted. -/
theorem bookkeeping_whole_output :
    ∃ s, run (engineStep exampleOptions) initial [.run true, .turn 0 false,
        .runtime 0 true false true, .stdout [0x61], .bridge 0 false false false] = some s ∧
      s.executions = 1 ∧ (s.Booked exampleOptions ↔ Along (engineStep exampleOptions) Passes initial
        [.run true, .turn 0 false, .runtime 0 true false true, .stdout [0x61],
          .bridge 0 false false false]) :=
  ⟨_, rfl, rfl, bookkeeping_iff exampleOptions rfl⟩

/-- A run that writes the first byte of a character last, and whose listener throws at the character
that replaces it, is not counted, and the virtual machine is not marked. -/
theorem bookkeeping_skipped :
    ∃ s, run (engineStep exampleOptions) initial [.run true, .turn 0 false,
        .runtime 0 true false true, .stdout [0xC3], .bridge 0 false true false] = some s ∧
      s.returned = [bridgeFailed] ∧ s.executions = 0 ∧ s.tainted = false ∧
      s.retirementRecommended exampleOptions = false ∧ ¬ s.Booked exampleOptions := by
  refine ⟨_, rfl, rfl, rfl, rfl, rfl, fun hbooked => ?_⟩
  cases hbooked.counted

end EngineVm

end TraceJvm
