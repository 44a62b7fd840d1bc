import TraceJvm.AnalysisTyping
import TraceJvm.Lib.Transition

/-! One activation of the interpreter over rewritten code: every value takes one cell of the operand
stack or of the locals. What an operation computes, which branch is taken and which exception is
caught is decided outside. -/
namespace TraceJvm

inductive Value where
  | int (n : ℤ)
  | long (n : ℤ)
  | float (bits : ℕ)
  | double (bits : ℕ)
  | reference (address : Option ℕ)
  deriving DecidableEq

def Value.kind : Value → TypeKind
  | .int _ => .int
  | .long _ => .long
  | .float _ => .float
  | .double _ => .double
  | .reference _ => .reference

/-- The number of cells that the handler of an instruction takes from the stack, and the kind of
the cell that it leaves. -/
def handlerEffect (insn : Instruction) : Option (ℕ × TypeKind) :=
  match insn.kind with
  | .nop | .goto | .returnVoid => some (0, .void)
  | .aconstNull | .ldc | .new => some (0, .reference)
  | .iconst => some (0, .int)
  | .lconst => some (0, .long)
  | .fconst => some (0, .float)
  | .dconst => some (0, .double)
  | .getstatic => some (0, insn.field.reprKind)
  | .putstatic => some (1, .void)
  | .getfield => some (1, insn.field.reprKind)
  | .putfield => some (2, .void)
  | .iadd | .isub | .imul | .iand | .ior | .ixor | .ishl | .ishr | .iushr | .idiv | .irem | .lcmp
  | .fcmpg | .fcmpl | .dcmpg | .dcmpl => some (2, .int)
  | .ladd | .lsub | .lmul | .land | .lor | .lxor | .lshl | .lshr | .lushr | .ldiv | .lrem =>
      some (2, .long)
  | .fadd | .fsub | .fmul | .fdiv | .frem => some (2, .float)
  | .dadd | .dsub | .dmul | .ddiv | .drem => some (2, .double)
  | .ineg | .i2s | .i2b | .i2c | .l2i | .f2i | .d2i | .arraylength | .instanceof => some (1, .int)
  | .lneg | .i2l | .f2l | .d2l => some (1, .long)
  | .fneg | .i2f | .l2f | .d2f => some (1, .float)
  | .dneg | .i2d | .l2d | .f2d => some (1, .double)
  | .iaload | .baload | .saload | .caload => some (2, .int)
  | .laload => some (2, .long)
  | .faload => some (2, .float)
  | .daload => some (2, .double)
  | .aaload => some (2, .reference)
  | .iastore | .lastore | .fastore | .dastore | .bastore | .sastore | .castore | .aastore =>
      some (3, .void)
  | .areturn | .ireturn | .lreturn | .freturn | .dreturn | .athrow => some (1, .void)
  | .tableswitch | .lookupswitch | .ifeq | .ifne | .iflt | .ifge | .ifgt | .ifle | .ifnull
  | .ifnonnull | .monitorenter | .monitorexit => some (1, .void)
  | .ifIcmpeq | .ifIcmpne | .ifIcmplt | .ifIcmpge | .ifIcmpgt | .ifIcmple | .ifAcmpeq | .ifAcmpne =>
      some (2, .void)
  | .newarray | .anewarray | .checkcast => some (1, .reference)
  | .multianewarray => some (insn.dimensions, .reference)
  | .invokestatic | .invokedynamic =>
      some (insn.method.args.length, insn.method.returnType.reprKind)
  | .invokevirtual | .invokespecial | .invokeinterface =>
      some (insn.method.args.length + 1, insn.method.returnType.reprKind)
  | _ => none

/-- `get_local`: the local that a load or a store accesses lies `delta` cells below the frame. -/
def Instruction.localCell (maxLocals : ℕ) (insn : Instruction) : ℕ := (maxLocals - insn.delta).toNat

def Instruction.successors (insn : Instruction) (pc : ℕ) : List ℕ :=
  (if insn.kind.hasBranchDelta then [(pc + insn.delta / sizeofInsn).toNat]
    else if insn.kind = .tableswitch ∨ insn.kind = .lookupswitch then insn.switchTargets
    else []) ++
  if insn.kind.terminates then [] else [pc + 1]

/-- Leaves a result on the stack; `void` is no result. -/
def pushValue (k : TypeKind) (v : Value) (st : List Value) : List Value :=
  if k = .void then st else v :: st

/-- The stack and the locals after an instruction that reads `operands` and computes `v`. -/
def execInsn (maxLocals : ℕ) (insn : Instruction) (operands : List Value) (v : Value)
    (stack locals : List Value) : Option (List Value × List Value) :=
  match loadKind insn.kind, storeKind insn.kind with
  | some _, _ =>
    (locals[insn.localCell maxLocals]?).bind fun x =>
      if operands = [x] then some (x :: stack, locals) else none
  | none, some _ =>
    match stack with
    | x :: st =>
      if operands = [x] ∧ insn.localCell maxLocals < locals.length then
        some (st, locals.set (insn.localCell maxLocals) x)
      else none
    | [] => none
  | none, none =>
    if insn.kind = .iinc then
      (locals[insn.index]?).bind fun x =>
        if operands = [x] ∧ v.kind = .int then some (stack, locals.set insn.index v) else none
    else if insn.kind.isShuffle then
      if operands = [] then (shuffleSlots insn.kind stack).map fun st => (st, locals) else none
    else
      (handlerEffect insn).bind fun e =>
        if operands.length = e.1 ∧ operands <+: stack ∧ (e.2 = .void ∨ v.kind = e.2) then
          some (pushValue e.2 v (stack.drop e.1), locals)
        else none

structure JavaFrame where
  pc : ℕ
  stack : List Value
  locals : List Value

/-- What happens to an activation in one step: an instruction reads its operands, computes a result
and continues at `target`, or a handler catches an exception. -/
inductive FrameEvent where
  | proceed (operands : List Value) (result : Value) (target : ℕ)
  | caught (e : ExceptionEntry) (exception : ℕ)

def frameStep (maxLocals : ℕ) (table : List ExceptionEntry) (code : List Instruction)
    (s : JavaFrame) : FrameEvent → Option JavaFrame
  | .proceed operands v target =>
    (code[s.pc]?).bind fun insn =>
      if target ∈ insn.successors s.pc then
        (execInsn maxLocals insn operands v s.stack s.locals).map fun r => ⟨target, r.1, r.2⟩
      else none
  | .caught e x =>
    if e ∈ table ∧ e.covers s.pc ∧ s.pc < code.length then
      some ⟨e.handlerInsn, [.reference (some x)], s.locals⟩
    else none

/-- The activation that a call of the method starts with: the arguments are the first locals. -/
structure JavaFrame.Entry (m : CodeMethod) (s : JavaFrame) : Prop where
  pc : s.pc = 0
  stack : s.stack = []
  length : s.locals.length = m.maxLocals
  args : ∀ (n : ℕ) (k : TypeKind), m.entryKinds[n]? = some k →
    ∃ v : Value, s.locals[n]? = some v ∧ v.kind = k

theorem handlerEffect_of_stackEffect {insn : Instruction} {pops : List TypeKind} {push : TypeKind}
    (hk : insn.kind ≠ .jsr ∧ insn.kind ≠ .ret) (h : stackEffect insn = some (pops, push)) :
    handlerEffect insn = some (pops.length, push) := by
  obtain ⟨kind⟩ := insn
  cases kind <;> first
    | (cases h; done)
    | (cases h; rfl)
    | (exact absurd rfl hk.1)
    | (exact absurd rfl hk.2)
    | (cases h; simp [handlerEffect])

end TraceJvm
