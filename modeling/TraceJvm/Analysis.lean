import TraceJvm.StackMapTable
import Mathlib.Data.List.Basic

/-! `analyze_method_code`: the kinds of the operand stack and the locals at every instruction, and
the rewriting after which a `long` or `double` takes one slot. Stacks are listed top first. -/
namespace TraceJvm

/-- The ways in which the analysis does not return 0. The last two stop the process. -/
inductive AnalysisError where
  | localTypeMismatch
  | localOverflow
  | stackOverflow
  | stackUnderflow
  | stackTypeMismatch
  | stackMap (msg : String)
  | entryLocals
  | localVariableTable
  | unreachable
  | checkFailed

/-- How the error text starts; three failures leave it unset. -/
def AnalysisError.message : AnalysisError → Option String
  | .localTypeMismatch => some "Local type mismatch:"
  | .localOverflow => some "Local overflow:"
  | .stackOverflow => some "Stack overflow:"
  | .stackUnderflow => some "Stack underflow:"
  | .stackTypeMismatch => some "Stack type mismatch:"
  | .stackMap msg => some msg
  | .entryLocals | .localVariableTable | .unreachable | .checkFailed => none

def argSlots (maxLocals : ℕ) : ℕ → List FieldDescriptor → Option (List ℕ)
  | _, [] => some []
  | j, a :: as =>
    if j < maxLocals then
      if a.isWide then
        if j + 1 < maxLocals then (argSlots maxLocals (j + 2) as).map (j :: ·) else none
      else (argSlots maxLocals (j + 1) as).map (j :: ·)
    else none

/-- The slots of `this` and of the arguments. -/
def CodeMethod.entrySlots (m : CodeMethod) : Option (List ℕ) :=
  if m.isStatic then argSlots m.maxLocals 0 m.descriptor.args
  else if m.maxLocals = 0 then none
  else (argSlots m.maxLocals 1 m.descriptor.args).map (0 :: ·)

/-- Maps the `n`th of the given slots to `n` and all others, in order, to the numbers that
follow. -/
def fillSwizzle (slots : List ℕ) : List ℕ → ℕ → List ℕ
  | [], _ => []
  | j :: js, next =>
    match slots.idxOf? j with
    | some n => n :: fillSwizzle slots js next
    | none => next :: fillSwizzle slots js (next + 1)

/-- The kinds of `this` and of the arguments. -/
def CodeMethod.entryKinds (m : CodeMethod) : List TypeKind :=
  (if m.isStatic then [] else [.reference]) ++ m.descriptor.args.map FieldDescriptor.reprKind

structure AnalysisEnv where
  maxStack : ℕ
  maxLocals : ℕ
  exceptionTable : List ExceptionEntry
  missingSmt : Bool
  swizzle : List ℕ

/-- `locals_on_method_entry`: the swizzle map and the kinds of the locals. -/
def CodeMethod.localsOnMethodEntry (m : CodeMethod) :
    Except AnalysisError (List ℕ × List TypeKind) :=
  match m.entrySlots with
  | none => .error .entryLocals
  | some slots =>
    .ok (fillSwizzle slots (List.range m.maxLocals) slots.length,
      m.entryKinds ++ List.replicate (m.maxLocals - slots.length) .void)

/-- `method_analysis_ctx`. The known states are used in the mode without a table only; a known
stack is listed bottom first. -/
structure AnalysisCtx where
  stack : List TypeKind
  locals : List TypeKind
  edges : List (ℕ × ℕ)
  knownStacks : ℕ → Option (List TypeKind)
  knownLocals : ℕ → Option (List TypeKind)
  changed : Bool

/-- `intersect_analy_stack_state`: the new state and whether a kind was lost. The length shrinks
silently. -/
def intersectState (dst : Option (List TypeKind)) (src : List TypeKind) : List TypeKind × Bool :=
  match dst with
  | none => (src, true)
  | some d =>
    (List.zipWith (fun a b => if a ≠ b ∧ a ≠ .void then .void else a) d src,
      (d.zip src).any fun p => p.1 ≠ p.2 ∧ p.1 ≠ .void)

def AnalysisCtx.intersectStack (c : AnalysisCtx) (target : ℕ) (stack : List TypeKind) :
    AnalysisCtx :=
  let (known, changed) := intersectState (c.knownStacks target) stack.reverse
  { c with
    knownStacks := Function.update c.knownStacks target (some known)
    changed := c.changed || changed }

def AnalysisCtx.intersectLocals (c : AnalysisCtx) (target : ℕ) : AnalysisCtx :=
  let (known, changed) := intersectState (c.knownLocals target) c.locals
  { c with
    knownLocals := Function.update c.knownLocals target (some known)
    changed := c.changed || changed }

def AnalysisCtx.pushBranchTarget (missingSmt : Bool) (curr : ℕ) (c : AnalysisCtx) (target : ℕ) :
    AnalysisCtx :=
  let c := { c with edges := c.edges ++ [(curr, target)] }
  if missingSmt then (c.intersectStack target c.stack).intersectLocals target else c

/-- `calculate_tos_type`. -/
def tosType : List TypeKind → Except AnalysisError TosKind
  | [] => .ok .void
  | .float :: _ => .ok .float
  | .double :: _ => .ok .double
  | .void :: _ => .error .unreachable
  | _ :: _ => .ok .int

/-- A sequence of `POP`s. -/
def popKinds : List TypeKind → List TypeKind → Except AnalysisError (List TypeKind)
  | [], st => .ok st
  | _ :: _, [] => .error .stackUnderflow
  | k :: ks, k' :: st => if k = k' then popKinds ks st else .error .stackTypeMismatch

def popVal : List TypeKind → Except AnalysisError (TypeKind × List TypeKind)
  | [] => .error .stackUnderflow
  | k :: st => .ok (k, st)

/-- `PUSH_ENTRY`; the buffer has one entry more than `max_stack`. -/
def pushEntry (maxStack : ℕ) (k : TypeKind) (st : List TypeKind) :
    Except AnalysisError (List TypeKind) :=
  if st.length = maxStack + 1 then .error .stackOverflow
  else if k = .void then .ok st
  else .ok (k :: st)

/-- A sequence of `PUSH_ENTRY`s. -/
def pushEntries (maxStack : ℕ) :
    List TypeKind → List TypeKind → Except AnalysisError (List TypeKind)
  | [], st => .ok st
  | k :: ks, st => do
    let st ← pushEntry maxStack k st
    pushEntries maxStack ks st

def loadKind : InsnKind → Option TypeKind
  | .dload => some .double
  | .fload => some .float
  | .iload => some .int
  | .lload => some .long
  | .aload => some .reference
  | _ => none

def storeKind : InsnKind → Option TypeKind
  | .dstore => some .double
  | .fstore => some .float
  | .istore => some .int
  | .lstore => some .long
  | .astore => some .reference
  | _ => none

/-- The kinds popped, top of the stack first, and the kind pushed, for the instructions whose
effect does not depend on the kinds they find. -/
def stackEffect (insn : Instruction) : Option (List TypeKind × TypeKind) :=
  let args := (insn.method.args.map FieldDescriptor.reprKind).reverse
  match insn.kind with
  | .nop | .ret | .returnVoid | .goto => some ([], .void)
  | .aaload => some ([.int, .reference], .reference)
  | .aastore => some ([.reference, .int, .reference], .void)
  | .aconstNull | .new | .ldc | .jsr => some ([], .reference)
  | .areturn | .athrow | .monitorenter | .monitorexit | .ifnull | .ifnonnull =>
      some ([.reference], .void)
  | .arraylength | .instanceof => some ([.reference], .int)
  | .baload | .caload | .saload | .iaload => some ([.int, .reference], .int)
  | .bastore | .castore | .sastore | .iastore => some ([.int, .int, .reference], .void)
  | .d2f => some ([.double], .float)
  | .d2i => some ([.double], .int)
  | .d2l => some ([.double], .long)
  | .dadd | .ddiv | .dmul | .drem | .dsub => some ([.double, .double], .double)
  | .daload => some ([.int, .reference], .double)
  | .dastore => some ([.double, .int, .reference], .void)
  | .dcmpg | .dcmpl => some ([.double, .double], .int)
  | .dneg => some ([.double], .double)
  | .dreturn => some ([.double], .void)
  | .f2d => some ([.float], .double)
  | .f2i => some ([.float], .int)
  | .f2l => some ([.float], .long)
  | .fadd | .fdiv | .fmul | .frem | .fsub => some ([.float, .float], .float)
  | .faload => some ([.int, .reference], .float)
  | .fastore => some ([.float, .int, .reference], .void)
  | .fcmpg | .fcmpl => some ([.float, .float], .int)
  | .fneg => some ([.float], .float)
  | .freturn => some ([.float], .void)
  | .i2b | .i2c | .i2s | .ineg => some ([.int], .int)
  | .i2d => some ([.int], .double)
  | .i2f => some ([.int], .float)
  | .i2l => some ([.int], .long)
  | .iadd | .iand | .idiv | .imul | .irem | .ior | .ishl | .ishr | .isub | .ixor | .iushr =>
      some ([.int, .int], .int)
  | .ireturn | .ifeq | .ifne | .iflt | .ifge | .ifgt | .ifle | .tableswitch | .lookupswitch =>
      some ([.int], .void)
  | .l2d => some ([.long], .double)
  | .l2f => some ([.long], .float)
  | .l2i => some ([.long], .int)
  | .ladd | .land | .ldiv | .lmul | .lor | .lrem | .lsub | .lxor =>
      some ([.long, .long], .long)
  | .lshl | .lshr | .lushr => some ([.int, .long], .long)
  | .laload => some ([.int, .reference], .long)
  | .lastore => some ([.long, .int, .reference], .void)
  | .lcmp => some ([.long, .long], .int)
  | .lneg => some ([.long], .long)
  | .lreturn => some ([.long], .void)
  | .anewarray | .newarray => some ([.int], .reference)
  | .checkcast => some ([.reference], .reference)
  | .getfield => some ([.reference], insn.field.reprKind)
  | .getstatic => some ([], insn.field.reprKind)
  | .invokedynamic | .invokestatic => some (args, insn.method.returnType.reprKind)
  | .invokespecial | .invokevirtual | .invokeinterface =>
      some (args ++ [.reference], insn.method.returnType.reprKind)
  | .ifAcmpeq | .ifAcmpne => some ([.reference, .reference], .void)
  | .ifIcmpeq | .ifIcmpne | .ifIcmplt | .ifIcmpge | .ifIcmpgt | .ifIcmple =>
      some ([.int, .int], .void)
  | .iconst => some ([], .int)
  | .dconst => some ([], .double)
  | .fconst => some ([], .float)
  | .lconst => some ([], .long)
  | .multianewarray => some (List.replicate insn.dimensions .int, .reference)
  | _ => none

def Instruction.branchTargets (insn : Instruction) : List ℕ :=
  match insn.kind with
  | .goto | .jsr | .ifAcmpeq | .ifAcmpne | .ifIcmpeq | .ifIcmpne | .ifIcmplt | .ifIcmpge
  | .ifIcmpgt | .ifIcmple | .ifeq | .ifne | .iflt | .ifge | .ifgt | .ifle | .ifnonnull | .ifnull =>
      [insn.index]
  | .tableswitch | .lookupswitch => insn.switchTargets
  | _ => []

/-- The instruction never continues with its successor: `state_terminated`. -/
def InsnKind.terminates : InsnKind → Bool
  | .areturn | .athrow | .dreturn | .freturn | .ireturn | .lreturn | .returnVoid | .goto
  | .tableswitch | .lookupswitch => true
  | _ => false

/-- `sizeof(bytecode_insn)` on the 32-bit target. -/
def sizeofInsn : ℤ := 24

/-- The branches for which `calculate_branch_delta` is called. -/
def InsnKind.hasBranchDelta : InsnKind → Bool
  | .goto | .ifAcmpeq | .ifAcmpne | .ifIcmpeq | .ifIcmpne | .ifIcmplt | .ifIcmpge
  | .ifIcmpgt | .ifIcmple | .ifeq | .ifne | .iflt | .ifge | .ifgt | .ifle | .ifnonnull | .ifnull =>
      true
  | _ => false

/-- The instructions that only move stack values around: the stack after them and the kind that
the instruction is rewritten to. -/
def analyzeShuffle (maxStack : ℕ) (kind : InsnKind) (st : List TypeKind) :
    Except AnalysisError (List TypeKind × InsnKind) := do
  match kind with
  | .dup =>
    match st with
    | [] => .error .stackUnderflow
    | k :: _ => return (← pushEntry maxStack k st, .dup)
  | .dupX1 =>
    if st.length ≤ 1 then .error .stackUnderflow
    else
      let (kind1, st) ← popVal st
      let (kind2, st) ← popVal st
      if kind1.isWide || kind2.isWide then .error .stackTypeMismatch
      else return (← pushEntries maxStack [kind1, kind2, kind1] st, .dupX1)
  | .dupX2 =>
    let (toDup, st) ← popVal st
    let (kind2, st) ← popVal st
    if toDup.isWide then .error .stackTypeMismatch
    else if kind2.isWide then return (← pushEntries maxStack [toDup, kind2, toDup] st, .dupX1)
    else
      let (kind3, st) ← popVal st
      return (← pushEntries maxStack [toDup, kind3, kind2, toDup] st, .dupX2)
  | .dup2 =>
    let (toDup, st) ← popVal st
    if toDup.isWide then return (← pushEntries maxStack [toDup, toDup] st, .dup)
    else
      let (kind2, st) ← popVal st
      if kind2.isWide then .error .stackTypeMismatch
      else return (← pushEntries maxStack [kind2, toDup, kind2, toDup] st, .dup2)
  | .dup2X1 =>
    let (toDup, st) ← popVal st
    let (kind2, st) ← popVal st
    if toDup.isWide then return (← pushEntries maxStack [toDup, kind2, toDup] st, .dupX1)
    else
      let (kind3, st) ← popVal st
      if kind3.isWide then .error .stackTypeMismatch
      else return (← pushEntries maxStack [kind2, toDup, kind3, kind2, toDup] st, .dup2X1)
  | .dup2X2 =>
    let (toDup, st) ← popVal st
    let (kind2, st) ← popVal st
    if toDup.isWide then
      if kind2.isWide then return (← pushEntries maxStack [toDup, kind2, toDup] st, .dupX1)
      else
        let (kind3, st) ← popVal st
        if kind3.isWide then .error .stackTypeMismatch
        else return (← pushEntries maxStack [toDup, kind3, kind2, toDup] st, .dupX2)
    else
      let (kind3, st) ← popVal st
      if kind3.isWide then
        return (← pushEntries maxStack [kind2, toDup, kind3, kind2, toDup] st, .dup2X1)
      else
        let (kind4, st) ← popVal st
        if kind4.isWide then .error .stackTypeMismatch
        else
          return (← pushEntries maxStack [kind2, toDup, kind4, kind3, kind2, toDup] st, .dup2X2)
  | .pop =>
    let (kind, st) ← popVal st
    if kind.isWide then .error .stackTypeMismatch else return (st, .pop)
  | .pop2 =>
    let (kind, st) ← popVal st
    if kind.isWide then return (st, .pop)
    else
      let (kind2, st) ← popVal st
      if kind2.isWide then .error .stackTypeMismatch else return (st, .pop2)
  | .swap =>
    let (kind1, st) ← popVal st
    let (kind2, st) ← popVal st
    if kind1.isWide || kind2.isWide then .error .stackTypeMismatch
    else return (← pushEntries maxStack [kind1, kind2] st, .swap)
  | _ => .error .unreachable

def InsnKind.isShuffle : InsnKind → Bool
  | .dup | .dupX1 | .dupX2 | .dup2 | .dup2X1 | .dup2X2 | .pop | .pop2 | .swap => true
  | _ => false

/-- `SWIZZLE_LOCAL`: the rewritten index and the position of the local. -/
def swizzleLocal (env : AnalysisEnv) (doRewrite : Bool) (index : ℕ) :
    Except AnalysisError (ℕ × ℕ) :=
  match env.swizzle[index]? with
  | none => .error .localOverflow
  | some j => .ok (if doRewrite then j else index, j)

/-- The body of the switch of `analyze_instruction`. -/
def analyzeEffect (env : AnalysisEnv) (doRewrite : Bool) (curr : ℕ) (insn : Instruction)
    (c : AnalysisCtx) : Except AnalysisError (AnalysisCtx × Instruction) := do
  match loadKind insn.kind, storeKind insn.kind with
  | some k, _ =>
    let (index, j) ← swizzleLocal env doRewrite insn.index
    let kind := c.locals.getD j .void
    let stack ← pushEntry env.maxStack kind c.stack
    if kind ≠ k then .error .localTypeMismatch
    else return ({ c with stack := stack },
      { insn with index := index, delta := (env.maxLocals : ℤ) - index })
  | none, some k =>
    let stack ← popKinds [k] c.stack
    let (index, j) ← swizzleLocal env doRewrite insn.index
    return ({ c with stack := stack, locals := c.locals.set j k },
      { insn with index := index, delta := (env.maxLocals : ℤ) - index })
  | none, none =>
    if insn.kind = .iinc then
      let (index, _) ← swizzleLocal env doRewrite insn.index
      return (c, { insn with index := index })
    else if insn.kind = .putfield ∨ insn.kind = .putstatic then
      let (_, stack) ← popVal c.stack
      let stack ← popKinds (if insn.kind = .putfield then [.reference] else []) stack
      return ({ c with stack := stack }, insn)
    else if insn.kind.isShuffle then
      let (stack, kind) ← analyzeShuffle env.maxStack insn.kind c.stack
      return ({ c with stack := stack },
        { insn with kind := if doRewrite then kind else insn.kind })
    else
      match stackEffect insn with
      | none => .error .unreachable
      | some (pops, push) =>
        let stack ← popKinds pops c.stack
        let stack ← if push = .void then pure stack else pushEntry env.maxStack push stack
        let delta := if insn.kind.hasBranchDelta then
            ((insn.index : ℤ) - curr) * sizeofInsn
          else insn.delta
        return (insn.branchTargets.foldl (AnalysisCtx.pushBranchTarget env.missingSmt curr)
          { c with stack := stack }, { insn with delta := delta })

def analyzeInstruction (env : AnalysisEnv) (doRewrite : Bool) (curr : ℕ) (insn : Instruction)
    (c : AnalysisCtx) : Except AnalysisError (AnalysisCtx × Instruction) := do
  let before ← tosType c.stack
  let (c, insn) ← analyzeEffect env doRewrite curr { insn with tosBefore := before } c
  let after ← tosType c.stack
  return (c, { insn with tosAfter := after })

def AnalysisCtx.useStackMapFrame (env : AnalysisEnv) (it : FrameIterator) (c : AnalysisCtx) :
    AnalysisCtx :=
  { c with
    stack := (it.stack.map ValidationKind.representation).reverse
    locals := (it.locals.zip env.swizzle).foldl (fun ls p => ls.set p.2 p.1.kind.representation)
      (List.replicate c.locals.length .void) }

def AnalysisCtx.intersectExceptionHandlers (env : AnalysisEnv) (i : ℕ) (c : AnalysisCtx) :
    AnalysisCtx :=
  env.exceptionTable.foldl
    (fun c e => if e.covers i then c.intersectLocals e.handlerInsn else c) c

structure StackSummary where
  stack : List TypeKind
  locals : List TypeKind

structure PassState where
  ctx : AnalysisCtx
  iter : FrameIterator
  terminated : Bool
  states : List StackSummary
  code : List Instruction

/-- The state of the analysis before the instruction: taken from a stack map frame, recovered from
the jumps seen so far, or carried over from the instruction before it. -/
def PassState.arrive (env : AnalysisEnv) (i : ℕ) (insn : Instruction) (s : PassState) :
    Except AnalysisError PassState :=
  if insn.originalPc = s.iter.pc then
    let s := { s with ctx := s.ctx.useStackMapFrame env s.iter }
    if s.iter.hasNext then
      match s.iter.next env.maxStack env.maxLocals with
      | .error msg => .error (.stackMap msg)
      | .ok it => .ok { s with iter := it }
    else .ok s
  else if env.missingSmt then
    if s.terminated then
      match s.ctx.knownStacks i, s.ctx.knownLocals i with
      | some st, some ls =>
        .ok { s with
          ctx := { s.ctx with stack := st.reverse, locals := ls }.intersectExceptionHandlers env i }
      | _, _ => .error .checkFailed
    else
      .ok { s with
        ctx := ((s.ctx.intersectStack i s.ctx.stack).intersectLocals i).intersectExceptionHandlers
          env i }
  else .ok s

def passFrom (env : AnalysisEnv) (finished : Bool) :
    ℕ → List Instruction → PassState → Except AnalysisError PassState
  | _, [], s => .ok s
  | i, insn :: rest, s => do
    let s ← s.arrive env i insn
    let (ctx, insn') ← analyzeInstruction env finished i insn s.ctx
    passFrom env finished (i + 1) rest
      { s with
        ctx := ctx
        terminated := insn.kind.terminates
        states := s.states ++ [⟨s.ctx.stack, s.ctx.locals⟩]
        code := s.code ++ [insn'] }

/-- `code_analysis`, with the rewritten code. -/
structure CodeAnalysis where
  code : List Instruction
  states : List StackSummary
  lvt : List ℕ

/-- The passes from the label `analyze` on. A pass that lost a kind is repeated; the first one that
did not is followed by the pass that records and rewrites. -/
def analyzePasses (m : CodeMethod) (env : AnalysisEnv) :
    ℕ → Bool → AnalysisCtx → List Instruction → Option (Except AnalysisError PassState)
  | 0, _, _, _ => none
  | fuel + 1, finished, ctx, code =>
    match m.initIterator with
    | .error msg => some (.error (.stackMap msg))
    | .ok it =>
      match passFrom env finished 0 code ⟨ctx, it, true, [], []⟩ with
      | .error e => some (.error e)
      | .ok s =>
        if s.ctx.changed then
          analyzePasses m env fuel finished { s.ctx with changed := false } s.code
        else if finished then some (.ok s)
        else analyzePasses m env fuel true s.ctx s.code

def AnalysisCtx.fillExceptionHandlers (env : AnalysisEnv) (c : AnalysisCtx) : AnalysisCtx :=
  env.exceptionTable.foldl (fun c e => c.intersectStack e.handlerInsn [.reference]) c

/-- `analyze_method_code` of a method with code. `fuel` bounds the number of passes. -/
def analyzeMethodCode (fuel : ℕ) (m : CodeMethod) : Option (Except AnalysisError CodeAnalysis) :=
  match m.localsOnMethodEntry with
  | .error e => some (.error e)
  | .ok (swizzle, locals) =>
    if m.lvt.any fun i => m.maxLocals ≤ i then some (.error .localVariableTable)
    else
      let env : AnalysisEnv :=
        ⟨m.maxStack, m.maxLocals, m.exceptionTable, m.missingSmt, swizzle⟩
      let c : AnalysisCtx := ⟨[], locals, [], fun _ => none, fun _ => none, false⟩
      let c := if m.missingSmt then c.fillExceptionHandlers env else c
      (analyzePasses m env fuel (!m.missingSmt) c m.code).map fun r =>
        r.map fun s => ⟨s.code, s.states, m.lvt.map fun i => swizzle.getD i 0⟩

end TraceJvm
