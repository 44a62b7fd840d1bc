import TraceJvm.FrameMachine
import TraceJvm.ResolutionRace

/-! One activation as the handlers see it. The value on top of the operand stack can be in a
register, and its cell in the frame is stale then; the handler variant that has control tells
whether it is. Instructions rewrite themselves when they are executed for the first time. -/
namespace TraceJvm

open Function

/-- The table that `NEXT_INT`, `NEXT_FLOAT` or `NEXT_DOUBLE` uses for a result. -/
def TypeKind.tos : TypeKind → TosKind
  | .void => .void
  | .float => .float
  | .double => .double
  | _ => .int

/-- The handlers made by `FORWARD_TO_NULLARY`: they store the register to the frame and go on as
the variant without a value in the register. -/
def isForwarded : InsnKind → Bool
  | .getstatic | .putstatic | .getstaticB | .getstaticC | .getstaticS | .getstaticI | .getstaticJ
  | .getstaticF | .getstaticD | .getstaticZ | .getstaticL | .putfield | .returnVoid | .new
  | .newResolved | .invokestatic | .invokestaticResolved | .hotAot | .invokevirtual
  | .invokespecial | .invokespecialResolved | .invokeinterface | .invokevtableMonomorphic
  | .invokeitableMonomorphic | .invokesigpoly | .invokeitablePolymorphic
  | .invokevtablePolymorphic | .invokedynamic | .invokecallsite | .iload | .fload | .dload
  | .lload | .aload | .aconstNull | .ldc | .iconst | .fconst | .dconst | .lconst | .pop | .pop2
  | .swap | .dupX1 | .dupX2 | .dup2X1 | .dup2X2 | .hotArraysSupportUnsignedHashCode
  | .hotStringLatin1Equals => true
  | _ => false

def spillsFirst (k : InsnKind) : Bool := isForwarded k || k = .newarray || k = .multianewarray

/-- What a handler does when it completes. `compute` takes `n` values and passes its result on in
the register, `consume` takes `n` values and lets the next instruction reload the register, `call`
finds its result in the frame. -/
inductive HandlerBody where
  | keep
  | load
  | store
  | increment
  | push (k : TypeKind)
  | compute (n : ℕ) (k : TypeKind)
  | consume (n : ℕ)
  | call (n : ℕ) (k : TypeKind)
  | dup
  | dup2
  | shuffle

/-- The handler of an instruction in the variant `t`. The handlers that only rewrite their
instruction and those that leave the frame have no entry. -/
def handlerBody (t : TosKind) (insn : Instruction) : Option HandlerBody :=
  match insn.kind with
  | .nop | .goto => some .keep
  | .iload | .lload | .fload | .dload | .aload => some .load
  | .istore | .lstore | .fstore | .dstore | .astore => some .store
  | .iinc => some .increment
  | .aconstNull | .ldc | .newResolved | .getstaticL => some (.push .reference)
  | .iconst | .getstaticB | .getstaticC | .getstaticS | .getstaticI | .getstaticZ =>
      some (.push .int)
  | .lconst | .getstaticJ => some (.push .long)
  | .fconst | .getstaticF => some (.push .float)
  | .dconst | .getstaticD => some (.push .double)
  | .iadd | .isub | .imul | .iand | .ior | .ixor | .ishl | .ishr | .iushr | .idiv | .irem | .lcmp
  | .fcmpg | .fcmpl | .dcmpg | .dcmpl | .iaload | .baload | .saload | .caload
  | .hotStringLatin1Equals => some (.compute 2 .int)
  | .ladd | .lsub | .lmul | .land | .lor | .lxor | .lshl | .lshr | .lushr | .ldiv | .lrem
  | .laload => some (.compute 2 .long)
  | .fadd | .fsub | .fmul | .fdiv | .frem | .faload => some (.compute 2 .float)
  | .dadd | .dsub | .dmul | .ddiv | .drem | .daload | .pow => some (.compute 2 .double)
  | .aaload => some (.compute 2 .reference)
  | .ineg | .i2s | .i2b | .i2c | .l2i | .f2i | .d2i | .arraylength | .instanceofResolved
  | .getfieldB | .getfieldC | .getfieldS | .getfieldI | .getfieldZ => some (.compute 1 .int)
  | .lneg | .i2l | .f2l | .d2l | .getfieldJ => some (.compute 1 .long)
  | .fneg | .i2f | .l2f | .d2f | .getfieldF => some (.compute 1 .float)
  | .dneg | .i2d | .l2d | .f2d | .getfieldD | .sin | .cos | .tan => some (.compute 1 .double)
  | .sqrt => some (.compute 1 (if t = .float then .float else .double))
  | .newarray | .anewarrayResolved | .checkcastResolved | .getfieldL =>
      some (.compute 1 .reference)
  | .multianewarray => some (.compute insn.dimensions .reference)
  | .hotArraysSupportUnsignedHashCode => some (.compute 4 .int)
  | .tableswitch | .lookupswitch | .ifeq | .ifne | .iflt | .ifge | .ifgt | .ifle | .ifnull
  | .ifnonnull | .monitorenter | .monitorexit | .putstaticB | .putstaticC | .putstaticS
  | .putstaticI | .putstaticJ | .putstaticF | .putstaticD | .putstaticZ | .putstaticL =>
      some (.consume 1)
  | .ifIcmpeq | .ifIcmpne | .ifIcmplt | .ifIcmpge | .ifIcmpgt | .ifIcmple | .ifAcmpeq | .ifAcmpne
  | .putfieldB | .putfieldC | .putfieldS | .putfieldI | .putfieldJ | .putfieldF | .putfieldD
  | .putfieldZ | .putfieldL => some (.consume 2)
  | .iastore | .lastore | .fastore | .dastore | .bastore | .sastore | .castore | .aastore =>
      some (.consume 3)
  | .invokestaticResolved | .hotAot | .invokecallsite =>
      some (.call insn.method.args.length insn.method.returnType.reprKind)
  | .invokespecialResolved | .invokevtableMonomorphic | .invokevtablePolymorphic
  | .invokeitableMonomorphic | .invokeitablePolymorphic | .invokesigpoly =>
      some (.call (insn.method.args.length + 1) insn.method.returnType.reprKind)
  | .dup => some .dup
  | .dup2 => some .dup2
  | .pop | .pop2 | .swap | .dupX1 | .dupX2 | .dup2X1 | .dup2X2 => some .shuffle
  | _ => none

/-- An activation. `memory` is the operand stack of the frame, its first `sp` cells belong to
values, and `tos` is the variant that has control. `pending` is the kind of the instruction at
`pc` when its execution has been suspended. `code` is shared by all activations of the method. -/
structure TosFrame where
  pc : ℕ
  tos : TosKind
  register : Value
  sp : ℕ
  memory : ℕ → Value
  locals : List Value
  code : List Instruction
  pending : Option InsnKind

/-- The first `n` cells of an operand stack, the last one first. -/
def cells (memory : ℕ → Value) : ℕ → List Value
  | 0 => []
  | n + 1 => memory n :: cells memory n

def TosFrame.stack (s : TosFrame) : List Value :=
  if s.tos = .void then cells s.memory s.sp else s.register :: cells s.memory (s.sp - 1)

def TosFrame.value (s : TosFrame) (i : ℕ) : Value :=
  if s.tos ≠ .void ∧ i + 1 = s.sp then s.register else s.memory i

/-- The operand stack in the frame after `SPILL(tos)`. -/
def TosFrame.spilled (s : TosFrame) : ℕ → Value :=
  if s.tos = .void then s.memory else update s.memory (s.sp - 1) s.register

/-- The variant that gets control, and its register, or the choice of both by the next
instruction: `STACK_POLYMORPHIC_NEXT` and `STACK_POLYMORPHIC_JMP`. -/
inductive Passing where
  | typed (t : TosKind) (register : Value)
  | polymorphic

structure Passed where
  sp : ℕ
  memory : ℕ → Value
  locals : List Value
  passing : Passing

def shuffleMemory (kind : InsnKind) (sp : ℕ) (mem : ℕ → Value) : Option (ℕ × (ℕ → Value)) :=
  let val1 := mem (sp - 1)
  let val2 := mem (sp - 2)
  let val3 := mem (sp - 3)
  let val4 := mem (sp - 4)
  let put (writes : List (ℕ × Value)) : ℕ → Value :=
    writes.foldl (fun mem w => update mem w.1 w.2) mem
  match kind with
  | .pop => some (sp - 1, mem)
  | .pop2 => some (sp - 2, mem)
  | .swap => some (sp, put [(sp - 1, val2), (sp - 2, val1)])
  | .dupX1 => some (sp + 1, put [(sp - 2, val1), (sp - 1, val2), (sp, val1)])
  | .dupX2 => some (sp + 1, put [(sp - 3, val1), (sp - 2, val3), (sp - 1, val2), (sp, val1)])
  | .dup2X1 =>
      some (sp + 2,
        put [(sp - 3, val2), (sp - 2, val1), (sp - 1, val3), (sp, val2), (sp + 1, val1)])
  | .dup2X2 =>
      some (sp + 2, put [(sp - 4, val2), (sp - 3, val1), (sp - 2, val4), (sp - 1, val3),
        (sp, val2), (sp + 1, val1)])
  | _ => none

/-- A handler that has read `operands` and computes `v`. After a call the stack depth is the one
recorded for the next instruction. In the float and double variants `dup2` goes on with
`NEXT_INT`, which converts the register to some `s64`. -/
def TosFrame.runBody (maxLocals : ℕ) (depths : List ℕ) (insn : Instruction)
    (operands : List Value) (v : Value) (target : ℕ) (s : TosFrame) :
    HandlerBody → Option Passed
  | .keep => if operands = [] then some ⟨s.sp, s.memory, s.locals, .typed s.tos s.register⟩ else none
  | .load =>
    match loadKind insn.kind, s.locals[insn.localCell maxLocals]? with
    | some k, some x =>
      if operands = [x] then some ⟨s.sp + 1, s.spilled, s.locals, .typed k.tos x⟩ else none
    | _, _ => none
  | .store =>
    if operands = [s.register] ∧ insn.localCell maxLocals < s.locals.length then
      some ⟨s.sp - 1, s.memory, s.locals.set (insn.localCell maxLocals) s.register, .polymorphic⟩
    else none
  | .increment =>
    (s.locals[insn.index]?).bind fun x =>
      if operands = [x] ∧ v.kind = .int then
        some ⟨s.sp, s.memory, s.locals.set insn.index v, .typed s.tos s.register⟩
      else none
  | .push k =>
    if operands = [] ∧ v.kind = k then some ⟨s.sp + 1, s.spilled, s.locals, .typed k.tos v⟩
    else none
  | .compute n k =>
    if operands.length = n ∧ operands <+: s.stack ∧ v.kind = k then
      some ⟨s.sp + 1 - n, if spillsFirst insn.kind then s.spilled else s.memory, s.locals,
        .typed k.tos v⟩
    else none
  | .consume n =>
    if operands.length = n ∧ operands <+: s.stack then
      some ⟨s.sp - n, s.memory, s.locals, .polymorphic⟩
    else none
  | .call n k =>
    if operands.length = n ∧ operands <+: s.stack ∧ (k = .void ∨ v.kind = k) then
      (depths[target]?).map fun d =>
        ⟨d, if k = .void then s.spilled else update s.spilled (s.sp - n) v, s.locals, .polymorphic⟩
    else none
  | .dup =>
    if operands = [] then some ⟨s.sp + 1, s.spilled, s.locals, .typed s.tos s.register⟩ else none
  | .dup2 =>
    if operands = [] then
      some ⟨s.sp + 2, update s.spilled s.sp (s.memory (s.sp - 2)), s.locals,
        .typed .int (if s.tos = .int then s.register else v)⟩
    else none
  | .shuffle =>
    if operands = [] then
      (shuffleMemory insn.kind s.sp s.spilled).map fun r => ⟨r.1, r.2, s.locals, .polymorphic⟩
    else none

/-- Control passes to the instruction at `target`. -/
def TosFrame.pass (s : TosFrame) (target : ℕ) (r : Passed) : Option TosFrame :=
  match r.passing with
  | .typed t x =>
    some { s with
      pc := target, tos := t, register := x, sp := r.sp, memory := r.memory, locals := r.locals
      pending := none }
  | .polymorphic =>
    (s.code[target]?).map fun i =>
      { s with
        pc := target, tos := i.tosBefore, register := r.memory (r.sp - 1), sp := r.sp
        memory := r.memory, locals := r.locals, pending := none }

/-- The kinds that `intrinsify` can choose for a static call. The methods of `java.lang.Math` that
it knows by name take and return `double`s; the other two are known by name and descriptor. -/
def intrinsicKinds (d : MethodDescriptor) : List InsnKind :=
  let bytes : FieldDescriptor := ⟨.byte, 1, by decide⟩
  (if d.args = [.ofKind .double] ∧ d.returnType = .ofKind .double then [.sqrt, .sin, .cos, .tan]
    else []) ++
  (if d.args = [.ofKind .double, .ofKind .double] ∧ d.returnType = .ofKind .double then [.pow]
    else []) ++
  (if d.args = [.ofKind .int, bytes, .ofKind .int, .ofKind .int] ∧ d.returnType = .ofKind .int then
    [.hotArraysSupportUnsignedHashCode] else []) ++
  (if d.args = [bytes, bytes] ∧ d.returnType = .ofKind .boolean then [.hotStringLatin1Equals]
    else []) ++
  (if d.returnType.baseKind ≠ .void then [.hotAot] else [])

/-- The kinds that the handler of an instruction can leave in its record. The resolutions of `new`,
`getfield` and `putfield` can fail without an exception and leave the record alone. -/
def rewrites (insn : Instruction) : List InsnKind :=
  match insn.kind with
  | .getstatic => (getstaticPutstaticResolvedKind false insn.field.reprKind).toList
  | .putstatic => (getstaticPutstaticResolvedKind true insn.field.reprKind).toList
  | .getfield => .getfield :: (getfieldPutfieldResolvedKind false insn.field.reprKind).toList
  | .putfield => .putfield :: (getfieldPutfieldResolvedKind true insn.field.reprKind).toList
  | .new => [.new, .newResolved]
  | .anewarray => [.anewarrayResolved]
  | .checkcast => [.checkcastResolved]
  | .instanceof => [.instanceofResolved]
  | .invokestatic => .invokestaticResolved :: intrinsicKinds insn.method
  | .invokevirtual =>
      [.invokesigpoly, .invokeinterface, .invokespecialResolved, .invokevtableMonomorphic]
  | .invokeinterface => [.invokevirtual, .invokespecialResolved, .invokeitableMonomorphic]
  | .invokespecial =>
      .invokespecialResolved ::
        if insn.method.args = [] ∧ insn.method.returnType = .ofKind .void then [.pop] else []
  | .invokedynamic => [.invokecallsite]
  | .invokevtableMonomorphic => [.invokevtablePolymorphic]
  | .invokeitableMonomorphic => [.invokeitablePolymorphic]
  | _ => []

/-- How the handler that has rewritten its instruction to `k` goes on with it: `JMP_VOID` for most,
`RELOAD` and `JMP_INT`, or `STACK_POLYMORPHIC_JMP`. -/
def TosFrame.redispatch (s : TosFrame) (insn : Instruction) (k : InsnKind) : Passed :=
  match insn.kind with
  | .getfield | .checkcast | .instanceof =>
      ⟨s.sp, s.spilled, s.locals, .typed .int (s.spilled (s.sp - 1))⟩
  | .anewarray => ⟨s.sp, s.memory, s.locals, .typed .int s.register⟩
  | .putstatic | .putfield => ⟨s.sp, s.spilled, s.locals, .polymorphic⟩
  | .invokestatic =>
      ⟨s.sp, s.spilled, s.locals, if isIntrinsic k then .polymorphic else .typed .void s.register⟩
  | _ => ⟨s.sp, s.spilled, s.locals, .typed .void s.register⟩

/-- The kind that a suspended resolution leaves in the record when it is resumed. `orig` is the kind
that it was suspended with, the record may have been rewritten since. -/
def resumedKind (orig : InsnKind) (insn : Instruction) : Option InsnKind :=
  match orig with
  | .getstatic | .putstatic =>
      getstaticPutstaticResolvedKind (insn.kind = .putstatic) insn.field.reprKind
  | .new => some .newResolved
  | .invokestatic => some .invokestaticResolved
  | _ => none

def canSuspend : InsnKind → Bool
  | .getstatic | .putstatic | .new | .invokestatic | .monitorenter | .invokesigpoly => true
  | _ => false

/-- The instructions that start with `FUEL_CHECK`. -/
def checksFuel (k : InsnKind) : Bool := k.hasBranchDelta

/-- What the handlers read about the method: `depths` is `insn_index_to_sd`, and `code` the code
before any instruction was executed. -/
structure TosEnv where
  maxLocals : ℕ
  table : List ExceptionEntry
  depths : List ℕ
  code : List Instruction

def CodeMethod.tosEnv (m : CodeMethod) (A : CodeAnalysis) : TosEnv where
  maxLocals := m.maxLocals
  table := m.exceptionTable
  depths := A.states.map fun r => r.stack.length
  code := A.code

def setKind (code : List Instruction) (i : ℕ) (k : InsnKind) : List Instruction :=
  code.modify i fun insn => { insn with kind := k }

/-- What happens to an activation. An instruction completes or an exception is caught (`step`);
the handler at `pc` rewrites its instruction and goes on with it (`resolve`), is suspended and is
resumed, with the result of a signature polymorphic call or the failure of a class; the handler
gives up its time slice (`yield`) or the debugger stops before it (`pause`), and the instruction is
entered again later; another activation rewrites an instruction, at once or on its resumption;
a cell that holds no value is overwritten. -/
inductive TosEvent where
  | step (e : FrameEvent)
  | resolve (k : InsnKind)
  | suspend
  | resume (v : Value) (failed : Bool)
  | yield
  | pause
  | rewrite (i : ℕ) (k : InsnKind)
  | rewriteResumed (i : ℕ)
  | scribble (i : ℕ) (v : Value)

/-- The instruction at `pc` is entered by way of the recorded stack depth, as `entry` or as
`advance_pc` does. -/
def TosFrame.enter (depths : List ℕ) (s : TosFrame) (target : ℕ) (memory : ℕ → Value)
    (passing : Passing) : Option TosFrame :=
  (depths[target]?).bind fun d => s.pass target ⟨d, memory, s.locals, passing⟩

/-- `async_resume` on a frame that was suspended in an instruction of kind `p`. -/
def TosFrame.asyncResume (depths : List ℕ) (s : TosFrame) (p : InsnKind) (insn : Instruction)
    (v : Value) (failed : Bool) : Option TosFrame :=
  if p = .monitorenter then s.enter depths (s.pc + 1) s.memory .polymorphic
  else if p = .invokesigpoly then
    if insn.method.returnType.reprKind = .void then
      s.enter depths (s.pc + 1) s.memory .polymorphic
    else if v.kind = insn.method.returnType.reprKind then
      s.enter depths (s.pc + 1)
        (update s.memory (s.sp - (insn.method.args.length + 1)) v) .polymorphic
    else none
  else if p = .new ∧ failed then s.enter depths s.pc s.memory (.typed .void s.register)
  else
    (resumedKind p insn).bind fun k =>
      { s with code := setKind s.code s.pc k }.enter depths s.pc s.memory (.typed .void s.register)

/-- No other activation runs between the rewriting of an instruction and its new handler. -/
def TosFrame.mayRewrite (s : TosFrame) (i : ℕ) (insn : Instruction) : Prop :=
  i = s.pc → s.pending = none → s.tos = insn.tosBefore

instance (s : TosFrame) (i : ℕ) (insn : Instruction) : Decidable (s.mayRewrite i insn) :=
  inferInstanceAs (Decidable (i = s.pc → s.pending = none → s.tos = insn.tosBefore))

/-- One step of an activation. A handler that is not in the table of its variant gets stuck. -/
def tosStep (env : TosEnv) (s : TosFrame) : TosEvent → Option TosFrame
  | .step (.proceed operands v target) =>
    match s.pending, s.code[s.pc]? with
    | none, some insn =>
      if hasHandler s.tos insn.kind ∧ target ∈ insn.successors s.pc then
        (handlerBody s.tos insn).bind fun b =>
          (s.runBody env.maxLocals env.depths insn operands v target b).bind (s.pass target)
      else none
    | _, _ => none
  | .step (.caught e x) =>
    if e ∈ env.table ∧ e.covers s.pc ∧ s.pc < s.code.length then
      s.enter env.depths e.handlerInsn (update s.memory 0 (.reference (some x))) .polymorphic
    else none
  | .resolve k =>
    match s.pending, s.code[s.pc]? with
    | none, some insn =>
      if hasHandler s.tos insn.kind ∧ k ∈ rewrites insn then
        { s with code := setKind s.code s.pc k }.pass s.pc (s.redispatch insn k)
      else none
    | _, _ => none
  | .suspend =>
    match s.pending, s.code[s.pc]? with
    | none, some insn =>
      if hasHandler s.tos insn.kind ∧ canSuspend insn.kind then
        some { s with pending := some insn.kind, memory := s.spilled, tos := .void }
      else none
    | _, _ => none
  | .resume v failed =>
    match s.pending, s.code[s.pc]? with
    | some p, some insn => s.asyncResume env.depths p insn v failed
    | _, _ => none
  | .yield =>
    match s.pending, s.code[s.pc]? with
    | none, some insn =>
      if hasHandler s.tos insn.kind ∧ checksFuel insn.kind then
        s.enter env.depths s.pc s.spilled .polymorphic
      else none
    | _, _ => none
  | .pause => if s.pending = none then s.enter env.depths s.pc s.memory .polymorphic else none
  | .rewrite i k =>
    (s.code[i]?).bind fun insn =>
      if k ∈ rewrites insn ∧ s.mayRewrite i insn then some { s with code := setKind s.code i k }
      else none
  | .rewriteResumed i =>
    match env.code[i]?, s.code[i]? with
    | some orig, some insn =>
      if s.mayRewrite i insn then
        (resumedKind orig.kind insn).map fun k => { s with code := setKind s.code i k }
      else none
    | _, _ => none
  | .scribble i v =>
    if s.sp ≤ i ∨ s.tos ≠ .void ∧ i + 1 = s.sp then
      some { s with memory := update s.memory i v }
    else none

/-- The activation that a call starts with. The cells of the frame hold anything. -/
structure TosFrame.Entry (env : TosEnv) (s : TosFrame) : Prop where
  pc : s.pc = 0
  code : s.code = env.code
  pending : s.pending = none
  depth : env.depths[0]? = some s.sp
  tos : ∀ insn, env.code[0]? = some insn → s.tos = insn.tosBefore

end TraceJvm
