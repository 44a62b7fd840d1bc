import TraceJvm.Lib.Transition
import TraceJvm.Linkage

/-! `initialize_class` as a transition system. Every point at which the asynchronous function
can give up control ends a transition, so the runs below are all interleavings of all threads. -/
namespace TraceJvm

open Transition Function

/-- The calls that have set `CD_STATE_INITIALIZING` and not yet reached `done`. -/
def Phase.owns : Phase → Bool
  | .superAwait => true
  | .interfaceAwait _ => true
  | .clinit => true
  | _ => false

/-- The calls that are blocked on a nested `initialize_class`. -/
def Phase.awaits : Phase → Bool
  | .superAwait => true
  | .interfaceAwait _ => true
  | _ => false

structure Memory where
  callocFails : Bool
  constantsFail : Bool

inductive InitEvent where
  /-- Running code of thread `t` calls `initialize_class`. -/
  | call (t : ℕ) (r : ClassRef)
  /-- Running code of thread `t` calls `link_class`. -/
  | link (t : ℕ) (r : ClassRef)
  /-- `get_or_create_array_classdesc` creates the array class over `r`. -/
  | createArray (t : ℕ) (r : ClassRef)
  /-- A handler of the running code catches the pending exception. -/
  | catchException (t : ℕ)
  /-- The innermost `initialize_class` call of thread `t` is polled. -/
  | poll (t : ℕ) (m : Memory)
  /-- The `<clinit>` run by the innermost call ends. `error` is the value of the local of that
  name, which an exception leaves as it was before the await. -/
  | clinitReturns (t : ℕ) (thrown : Option Throwable) (error : Bool)

namespace Vm

/-- No class is linked yet; primitive classes and their one-dimensional arrays are born
initialised. -/
def initial (H : Hierarchy) : Vm where
  state r := if H.isPrimitive r.base ∧ r.dims ≤ 1 then .initialized else .loaded
  linkageError _ := none
  initializingThread _ := 0
  arrayDims c := if H.isPrimitive c then 1 else 0
  currentException _ := none
  calls _ := []
  clinitStarts _ := 0
  failure _ := none
  started := none
  returned := none

/-- Java code of the thread is running: it is outside `initialize_class` or in a `<clinit>`. -/
def running (s : Vm) (t : ℕ) : Bool :=
  match s.calls t with
  | [] => true
  | a :: _ => a.phase = .clinit

def quiet (s : Vm) : Vm := { s with started := none, returned := none }

/-- Stores a result into the `recursive_call_space` of the caller that awaits it. -/
def deliver (res : ℤ) : List Activation → List Activation
  | [] => []
  | b :: rest => if b.phase.awaits then { b with result := some res } :: rest else b :: rest

/-- The innermost call, for class `r`, returns `res`. -/
def ret (s : Vm) (t : ℕ) (rest : List Activation) (r : ClassRef) (res : ℤ) : Vm :=
  { s with
    calls := update s.calls t (deliver res rest)
    started := none
    returned := some (t, r, res) }

/-- From the label `done` to the end of `initialize_class`. -/
def done (s : Vm) (t : ℕ) (rest : List Activation) (r : ClassRef) (error : Bool)
    (why : Option Failure) : Vm :=
  let st := if error then ClassState.linkageError else .initialized
  let s := { s with
    state := update s.state r st
    linkageError := update s.linkageError r (s.currentException t)
    failure := if why = none then s.failure else update s.failure r why }
  (s.setArrayStates r.base st).ret t rest r (if error then 1 else 0)

end Vm

/-- The loop over the interfaces from index `i`, and what follows it up to the call of
`<clinit>`. -/
def initializeInterfaces (H : Hierarchy) (s : Vm) (t : ℕ) (r : ClassRef)
    (rest : List Activation) (m : Memory) (i : ℕ) : Vm :=
  match (H.interfaces r.base)[i]? with
  | some p =>
      { s.quiet with
        calls := update s.calls t (⟨⟨p, 0⟩, .enter, none⟩ :: ⟨r, .interfaceAwait i, none⟩ :: rest) }
  | none =>
      if m.constantsFail then
        (s.raise t .outOfMemoryError).done t rest r true (some .aborted)
      else if H.hasClinit r.base then
        { s with
          calls := update s.calls t (⟨r, .clinit, none⟩ :: rest)
          clinitStarts := update s.clinitStarts r (s.clinitStarts r + 1)
          started := some (t, r)
          returned := none }
      else s.done t rest r false none

/-- `initialize_class` from its first line to its first suspension. -/
def enterInitializeClass (H : Hierarchy) (s : Vm) (t : ℕ) (r : ClassRef)
    (rest : List Activation) (m : Memory) : Vm :=
  if H.kind r = .ordinaryArray then s.ret t rest r 0
  else if s.state r = .initialized ∨ s.state r = .linkageError then s.ret t rest r 0
  else
    let l := if (s.state r).rank < ClassState.linked.rank then linkClass H t s r else (0, s)
    let s := l.2
    if l.1 ≠ 0 then s.ret t rest r 0
    else if s.state r = .initializing then
      if s.initializingThread r = t then s.ret t rest r 0
      else { s.quiet with calls := update s.calls t (⟨r, .waiting, none⟩ :: rest) }
    else if s.state r = .linkageError then
      { s with currentException := update s.currentException t (s.linkageError r) }.ret
        t rest r (-1)
    else
      let s := { s with
        state := update s.state r .initializing
        initializingThread := update s.initializingThread r t }
      if m.callocFails then
        { s.raise t .outOfMemoryError with
          failure := update s.failure r (some .aborted) }.ret t rest r (-1)
      else
        match H.superClass r.base with
        | some p =>
            { s.quiet with
              calls := update s.calls t (⟨⟨p, 0⟩, .enter, none⟩ :: ⟨r, .superAwait, none⟩ :: rest) }
        | none => initializeInterfaces H s t r rest m 0

/-- Continues the innermost call of thread `t` up to its next suspension. -/
def pollInitializeClass (H : Hierarchy) (s : Vm) (t : ℕ) (m : Memory) (a : Activation)
    (rest : List Activation) : Option Vm :=
  match a.phase, a.result with
  | .enter, _ => some (enterInitializeClass H s t a.cls rest m)
  | .waiting, _ =>
      if s.state a.cls = .initializing then some s.quiet else some (s.ret t rest a.cls 0)
  | .superAwait, some res =>
      if res ≠ 0 then some (s.done t rest a.cls true (some .aborted))
      else some (initializeInterfaces H s t a.cls rest m 0)
  | .interfaceAwait i, some res =>
      if res ≠ 0 then some (s.done t rest a.cls true (some .aborted))
      else some (initializeInterfaces H s t a.cls rest m (i + 1))
  | _, _ => none

/-- What follows the await of `call_interpreter(clinit)`. -/
def finishClinit (s : Vm) (t : ℕ) (a : Activation) (rest : List Activation)
    (thrown : Option Throwable) (error : Bool) : Vm :=
  let s := { s with currentException := update s.currentException t thrown }
  match thrown with
  | none => s.done t rest a.cls false none
  | some e =>
      if e.isError then s.done t rest a.cls false (some .clinit)
      else (s.raise t .exceptionInInitializerError).done t rest a.cls error (some .clinit)

/-- The array class with the component `r`. -/
def ClassRef.array (r : ClassRef) : ClassRef := ⟨r.base, r.dims + 1⟩

def Vm.freshArray (s : Vm) (a : ClassRef) : Vm :=
  { s with
    state := update s.state a .loaded
    failure := update s.failure a none }

/-- `ordinary_array_classdesc` up to the linking of the new class. -/
def linkNewArray (H : Hierarchy) (s : Vm) (t : ℕ) (r : ClassRef) : Vm :=
  let s := s.freshArray r.array
  if ClassState.linked.rank ≤ (s.state r).rank then (linkClass H t s r.array).2 else s

/-- `get_or_create_array_classdesc` for an ordinary or array component. -/
def createArrayClass (H : Hierarchy) (s : Vm) (t : ℕ) (r : ClassRef) : Vm :=
  let s := linkNewArray H s t r
  { s.setState r.array (s.state r) with
    arrayDims := update s.arrayDims r.base (r.dims + 1) }

def initStep (H : Hierarchy) (s : Vm) : InitEvent → Option Vm
  | .call t r =>
      if s.running t ∧ r.dims ≤ s.arrayDims r.base then
        some { s.quiet with calls := update s.calls t (⟨r, .enter, none⟩ :: s.calls t) }
      else none
  | .link t r =>
      if s.running t ∧ r.dims ≤ s.arrayDims r.base then some (linkClass H t s r).2.quiet else none
  | .createArray t r =>
      if s.running t ∧ r.dims = s.arrayDims r.base then some (createArrayClass H s t r).quiet
      else none
  | .catchException t =>
      if s.running t then
        some { s.quiet with currentException := update s.currentException t none }
      else none
  | .poll t m =>
      match s.calls t with
      | [] => none
      | a :: rest => pollInitializeClass H s t m a rest
  | .clinitReturns t thrown error =>
      match s.calls t with
      | [] => none
      | a :: rest =>
          if a.phase = .clinit then some (finishClinit s t a rest thrown error) else none

end TraceJvm
