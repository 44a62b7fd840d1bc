import TraceJvm.Lib.Transition
import TraceJvm.DispatchTables

/-! First execution of an instruction that rewrites itself. The instruction record is shared by
all threads; `resolve_getstatic_putstatic`, `resolve_new_inst` and `resolve_invokestatic` can be
suspended in `initialize_class`, the other resolutions run to their end. -/
namespace TraceJvm

open Transition

/-- `getstatic_putstatic_resolved_kind`; `none` is the unreachable default. -/
def getstaticPutstaticResolvedKind (putstatic : Bool) : TypeKind → Option InsnKind
  | .boolean => some (if putstatic then .putstaticB else .getstaticB)
  | .char => some (if putstatic then .putstaticC else .getstaticC)
  | .float => some (if putstatic then .putstaticF else .getstaticF)
  | .double => some (if putstatic then .putstaticD else .getstaticD)
  | .byte => some (if putstatic then .putstaticB else .getstaticB)
  | .short => some (if putstatic then .putstaticS else .getstaticS)
  | .int => some (if putstatic then .putstaticI else .getstaticI)
  | .long => some (if putstatic then .putstaticJ else .getstaticJ)
  | .reference => some (if putstatic then .putstaticL else .getstaticL)
  | .void => none

/-- `getfield_putfield_resolved_kind`; `none` is the unreachable default. -/
def getfieldPutfieldResolvedKind (putfield : Bool) : TypeKind → Option InsnKind
  | .boolean => some (if putfield then .putfieldB else .getfieldB)
  | .char => some (if putfield then .putfieldC else .getfieldC)
  | .float => some (if putfield then .putfieldF else .getfieldF)
  | .double => some (if putfield then .putfieldD else .getfieldD)
  | .byte => some (if putfield then .putfieldB else .getfieldB)
  | .short => some (if putfield then .putfieldS else .getfieldS)
  | .int => some (if putfield then .putfieldI else .getfieldI)
  | .long => some (if putfield then .putfieldJ else .getfieldJ)
  | .reference => some (if putfield then .putfieldL else .getfieldL)
  | .void => none

/-- A field found by `field_lookup`. -/
structure Field where
  isStatic : Bool
  id : ℕ
  byteOffset : ℕ
  staticAddress : ℕ

/-- A method found by `method_lookup`. `intrinsic` is the kind that `intrinsify` chooses for a
static call of it. -/
structure Method where
  id : ℕ
  cls : ℕ
  isSignaturePolymorphic : Bool
  inInterface : Bool
  isFinal : Bool
  intrinsic : Option InsnKind
  vtableIndex : ℕ
  itableIndex : ℕ

/-- `cp_field_info`. `classdesc` is what `resolve_class` yields, `field` what the lookup on that
class yields, `links` whether `link_class` succeeds on it. -/
structure CpField where
  classdesc : Option ℕ
  links : Bool
  field : Option Field
  reprKind : TypeKind

/-- `cp_method_info`. `special` is the method that the lookup of `invokespecial` selects, with
whether it is `Object.<init>`; `methodType` is the result of `resolve_method_type`. -/
structure CpMethodInfo where
  classdesc : Option ℕ
  argsCount : ℕ
  returnsValue : Bool
  method : Option Method
  special : Option (Bool × ℕ)
  methodType : ℕ

/-- `cp_class_info`, with whether `link_class` succeeds on the class. -/
structure CpClass where
  classdesc : Option ℕ
  links : Bool

/-- `cp_indy_info`: the call site that `indy_resolve` links, with the arity of its form. -/
structure CpIndy where
  callSite : Option (ℕ × ℕ)

/-- The union of `bytecode_insn` as far as resolution reads and writes it. -/
inductive Operand where
  | field (f : CpField)
  | methodref (m : CpMethodInfo)
  | classInfo (c : CpClass)
  | indyInfo (i : CpIndy)
  | classdesc (c : ℕ)

/-- Contents of the inline caches `ic` and `ic2`. -/
inductive Cache where
  | null
  | staticAddress (a : ℕ)
  | field (f : ℕ)
  | offset (n : ℕ)
  | method (m : ℕ)
  | classdesc (c : ℕ)
  | methodType (m : ℕ)
  | callSite (c : ℕ)
  | index (n : ℕ)
  deriving DecidableEq

/-- `bytecode_insn`. -/
structure Insn where
  kind : InsnKind
  args : ℕ
  returns : Bool
  operand : Operand
  ic : Cache
  ic2 : Cache

structure Tables where
  vtableLookup : ℕ → ℕ → ℕ
  itableLookup : ℕ → ℕ → ℕ → Option ℕ
  vtableIndex : ℕ → ℕ

/-- What `initialize_class` answers when it is polled: not ready, or ready with a pending
exception or not and with the numeric state of the class. -/
structure InitReply where
  ready : Bool
  exception : Bool
  state : ℕ

inductive Suspended where
  | getstaticPutstatic (f : CpField)
  | newInst (c : ℕ)
  | invokestatic

/-- Where a thread is with respect to the instruction. `executed i` has run the handler that the
record `i` selects, `retry` has found the class unusable and jumps to the instruction again,
`wild` has read a rewritten operand as a constant pool entry or called an empty table entry. -/
inductive Status where
  | elsewhere
  | suspended (c : Suspended)
  | executed (i : Insn)
  | thrown
  | retry
  | wild

/-- The rest of `resolve_getstatic_putstatic` after the await, followed by the jump to the
resolved instruction. -/
def finishStatic (f : CpField) (r : InitReply) (i : Insn) : Insn × Status :=
  if r.exception then (i, .thrown)
  else match f.field with
  | none => (i, .thrown)
  | some fd =>
    if !fd.isStatic then (i, .thrown)
    else match getstaticPutstaticResolvedKind (i.kind = .putstatic) f.reprKind with
    | none => (i, .wild)
    | some k =>
      let i := { i with kind := k, ic := .staticAddress fd.staticAddress }
      (i, .executed i)

/-- The rest of `resolve_new_inst` after the await. -/
def finishNew (c : ℕ) (r : InitReply) (i : Insn) : Insn × Status :=
  if r.state < 3 then (i, if r.exception then .thrown else .retry)
  else
    let i := { i with kind := .newResolved, operand := .classdesc c }
    (i, if r.exception then .thrown else .executed i)

/-- The rest of `resolve_methodref` and of `resolve_invokestatic` after the await. `intrinsify`
tells whether the caller goes on to `intrinsify`. -/
def finishInvokestatic (intrinsify : Bool) (r : InitReply) (i : Insn) : Insn × Status :=
  match i.operand with
  | .methodref m =>
    if r.exception then (i, .thrown)
    else match m.method with
    | none => (i, .thrown)
    | some md =>
      let kind := if intrinsify then md.intrinsic.getD .invokestaticResolved
        else .invokestaticResolved
      let i := { i with kind := kind, ic := .method md.id, args := m.argsCount
                        returns := m.returnsValue }
      (i, .executed i)
  | _ => (i, .wild)

/-- `resolve_getfield_putfield`, which never suspends. A field that is not found fails without
raising an exception. -/
def resolveGetfieldPutfield (obj : Option ℕ) (i : Insn) : Insn × Status :=
  match i.operand with
  | .field f =>
    if obj = none ∨ f.classdesc = none ∨ !f.links then (i, .thrown)
    else match f.field with
    | none => (i, .retry)
    | some fd =>
      if fd.isStatic then (i, .thrown)
      else match getfieldPutfieldResolvedKind (i.kind = .putfield) f.reprKind with
      | none => (i, .wild)
      | some k =>
        let i := { i with kind := k, ic := .field fd.id, ic2 := .offset fd.byteOffset }
        (i, .executed i)
  | _ => (i, .wild)

/-- `checkcast`, `instanceof` and `anewarray` replace the constant pool entry by the class. -/
def resolveClassOperand (resolved : InsnKind) (i : Insn) : Insn × Status :=
  match i.operand with
  | .classInfo c =>
    match c.classdesc with
    | none => (i, .thrown)
    | some d =>
      if !c.links then (i, .thrown)
      else
        let i := { i with kind := resolved, operand := .classdesc d }
        (i, .executed i)
  | _ => (i, .wild)

/-- `invokeinterface` on an interface method, after `resolve_methodref`. -/
def resolveInterfaceMethod (T : Tables) (receiver : ℕ) (m : CpMethodInfo) (md : Method) (i : Insn) :
    Insn × Status :=
  let i := { i with returns := m.returnsValue }
  match T.itableLookup receiver md.cls md.itableIndex with
  | none => (i, .thrown)
  | some target =>
    let i := if md.isFinal then { i with kind := .invokespecialResolved, ic := .method md.id }
      else { i with kind := .invokeitableMonomorphic, ic := .method target
                    ic2 := .classdesc receiver }
    (i, .executed i)

/-- `invokevirtual` after `resolve_methodref`. -/
def resolveVirtualMethod (T : Tables) (receiver : ℕ) (m : CpMethodInfo) (md : Method) (i : Insn) :
    Insn × Status :=
  let i := { i with returns := m.returnsValue }
  if md.isSignaturePolymorphic then
    let i := { i with kind := .invokesigpoly, ic := .method md.id, ic2 := .methodType m.methodType }
    (i, .executed i)
  else if md.inInterface then
    resolveInterfaceMethod T receiver m md { i with kind := .invokeinterface }
  else
    let i := if md.isFinal then { i with kind := .invokespecialResolved, ic := .method md.id }
      else { i with kind := .invokevtableMonomorphic
                    ic := .method (T.vtableLookup receiver md.vtableIndex)
                    ic2 := .classdesc receiver }
    (i, .executed i)

/-- The handlers of `invokevirtual`, `invokeinterface` and `invokespecial`, which run
`resolve_methodref` to its end. -/
def resolveInstanceCall (T : Tables) (obj : Option ℕ) (i : Insn) : Insn × Status :=
  match i.operand with
  | .methodref m =>
    let i := { i with args := m.argsCount + 1 }
    match obj, m.method with
    | some receiver, some md =>
      if i.kind = .invokespecial then
        match m.special with
        | none => (i, .thrown)
        | some (isObjectInit, target) =>
          let i := if isObjectInit then { i with kind := .pop, returns := m.returnsValue }
            else { i with kind := .invokespecialResolved, ic := .method target
                          returns := m.returnsValue }
          (i, .executed i)
      else if i.kind = .invokeinterface ∧ md.inInterface then
        resolveInterfaceMethod T receiver m md i
      else resolveVirtualMethod T receiver m md { i with kind := .invokevirtual }
    | _, _ => (i, .thrown)
  | _ => (i, .wild)

/-- `invokedynamic`, whose `indy_resolve` runs to its end. -/
def resolveInvokedynamic (i : Insn) : Insn × Status :=
  match i.operand with
  | .indyInfo d =>
    match d.callSite with
    | none => (i, .thrown)
    | some (site, arity) =>
      let i := { i with kind := .invokecallsite, ic := .callSite site, args := arity }
      (i, .executed i)
  | _ => (i, .wild)

/-- A monomorphic call site, which turns polymorphic at the first receiver of another class. -/
def executeMonomorphic (T : Tables) (obj : Option ℕ) (i : Insn) : Insn × Status :=
  match obj with
  | none => (i, .thrown)
  | some receiver =>
    if i.ic2 = .classdesc receiver then (i, .executed i)
    else if i.kind = .invokevtableMonomorphic then
      match i.ic with
      | .method target =>
        let i := { i with kind := .invokevtablePolymorphic, ic2 := .index (T.vtableIndex target) }
        (i, .executed i)
      | _ => (i, .wild)
    else
      match i.operand with
      | .methodref m =>
        match m.method with
        | some md =>
          let i := { i with kind := .invokeitablePolymorphic, ic := .classdesc md.cls
                            ic2 := .index md.itableIndex }
          (i, .executed i)
        | none => (i, .wild)
      | _ => (i, .wild)

/-- One arrival of a thread at the instruction, up to its end or to its suspension. `obj` is the
object that the operation applies to, `r` the first answer of `initialize_class`. -/
def dispatch (T : Tables) (obj : Option ℕ) (r : InitReply) (i : Insn) : Insn × Status :=
  match i.kind with
  | .getstatic | .putstatic =>
    match i.operand with
    | .field f =>
      if f.classdesc = none then (i, .thrown)
      else if r.ready then finishStatic f r i else (i, .suspended (.getstaticPutstatic f))
    | _ => (i, .wild)
  | .new =>
    match i.operand with
    | .classInfo c =>
      match c.classdesc with
      | none => (i, .thrown)
      | some d => if r.ready then finishNew d r i else (i, .suspended (.newInst d))
    | _ => (i, .wild)
  | .invokestatic =>
    match i.operand with
    | .methodref m =>
      if m.classdesc = none then (i, .thrown)
      else if r.ready then finishInvokestatic true r i else (i, .suspended .invokestatic)
    | _ => (i, .wild)
  | .getfield | .putfield => resolveGetfieldPutfield obj i
  | .checkcast => resolveClassOperand .checkcastResolved i
  | .instanceof => resolveClassOperand .instanceofResolved i
  | .anewarray => resolveClassOperand .anewarrayResolved i
  | .invokevirtual | .invokeinterface | .invokespecial => resolveInstanceCall T obj i
  | .invokedynamic => resolveInvokedynamic i
  | .invokevtableMonomorphic | .invokeitableMonomorphic => executeMonomorphic T obj i
  | _ => (i, .executed i)

/-- `JMP_VOID` after a resumption. -/
def jmpVoid : Insn × Status → Insn × Status
  | (i, .executed j) => (i, if inVoidTable j.kind then .executed j else .wild)
  | x => x

/-- The resumption of a suspended resolution, `CONT_RESOLVE`. The test that would intrinsify the
call finds `invokestatic_resolved` and never succeeds. -/
def resume (c : Suspended) (r : InitReply) (i : Insn) : Insn × Status :=
  if !r.ready then (i, .suspended c)
  else match c with
  | .getstaticPutstatic f => jmpVoid (finishStatic f r i)
  | .newInst d => jmpVoid (finishNew d r i)
  | .invokestatic => jmpVoid (finishInvokestatic false r i)

inductive ResolveEvent where
  | execute (t : ℕ) (obj : Option ℕ) (r : InitReply)
  | resume (t : ℕ) (r : InitReply)

structure ResolveState where
  insn : Insn
  thread : ℕ → Status

def ResolveState.initial (orig : Insn) : ResolveState := ⟨orig, fun _ => .elsewhere⟩

def ResolveState.put (s : ResolveState) (t : ℕ) (x : Insn × Status) : ResolveState :=
  ⟨x.1, Function.update s.thread t x.2⟩

def resolveStep (T : Tables) (s : ResolveState) : ResolveEvent → Option ResolveState
  | .execute t obj r =>
      match s.thread t with
      | .suspended _ | .wild => none
      | _ => some (s.put t (dispatch T obj r s.insn))
  | .resume t r =>
      match s.thread t with
      | .suspended c => some (s.put t (resume c r s.insn))
      | _ => none

end TraceJvm
