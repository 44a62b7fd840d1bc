import TraceJvm.Analysis
import TraceJvm.StackMapFrames

/-! The type checker of JVMS 4.10 at the level of kinds. A frame gives the kinds of the operand
stack, one entry a value, and of the local slots, where a `long` or `double` takes two; `void`
stands for `top`. -/
namespace TraceJvm

@[ext] structure KindFrame where
  stack : List TypeKind
  locals : ℕ → TypeKind

def TypeKind.isNarrow (k : TypeKind) : Bool := !k.isWide && k ≠ .void

/-- The locals after a value of kind `k` has been stored at slot `n`. A `long` or `double` that
loses one of its slots is gone. -/
def storeLocal (n : ℕ) (k : TypeKind) (locals : ℕ → TypeKind) (s : ℕ) : TypeKind :=
  if s = n then k
  else if k.isWide ∧ s = n + 1 then .void
  else if s + 1 = n ∧ (locals s).isWide then .void
  else locals s

/-- The forms of the stack instructions of JVMS 6.5, over values of one and two slots. -/
def shuffleKinds : InsnKind → List TypeKind → Option (List TypeKind)
  | .dup, a :: st => if a.isNarrow then some (a :: a :: st) else none
  | .dupX1, a :: b :: st =>
      if a.isNarrow && b.isNarrow then some (a :: b :: a :: st) else none
  | .dupX2, a :: b :: st =>
      if a.isNarrow && b.isWide then some (a :: b :: a :: st)
      else match st with
      | c :: st =>
        if a.isNarrow && b.isNarrow && c.isNarrow then some (a :: b :: c :: a :: st) else none
      | [] => none
  | .dup2, a :: st =>
      if a.isWide then some (a :: a :: st)
      else match st with
      | b :: st => if a.isNarrow && b.isNarrow then some (a :: b :: a :: b :: st) else none
      | [] => none
  | .dup2X1, a :: b :: st =>
      if a.isWide && b.isNarrow then some (a :: b :: a :: st)
      else match st with
      | c :: st =>
        if a.isNarrow && b.isNarrow && c.isNarrow then some (a :: b :: c :: a :: b :: st) else none
      | [] => none
  | .dup2X2, a :: b :: st =>
      if a.isWide && b.isWide then some (a :: b :: a :: st)
      else match st with
      | c :: st =>
        if a.isWide && b.isNarrow && c.isNarrow then some (a :: b :: c :: a :: st)
        else if a.isNarrow && b.isNarrow && c.isWide then some (a :: b :: c :: a :: b :: st)
        else match st with
        | d :: st =>
          if a.isNarrow && b.isNarrow && c.isNarrow && d.isNarrow then
            some (a :: b :: c :: d :: a :: b :: st)
          else none
        | [] => none
      | [] => none
  | .pop, a :: st => if a.isNarrow then some st else none
  | .pop2, a :: st =>
      if a.isWide then some st
      else match st with
      | b :: st => if a.isNarrow && b.isNarrow then some st else none
      | [] => none
  | .swap, a :: b :: st => if a.isNarrow && b.isNarrow then some (b :: a :: st) else none
  | _, _ => none

def takeKinds : List TypeKind → List TypeKind → Option (List TypeKind)
  | [], st => some st
  | k :: ks, k' :: st => if k = k' ∧ k ≠ .void then takeKinds ks st else none
  | _ :: _, [] => none

/-- Puts a result on the stack; `void` is no result. -/
def pushKind (k : TypeKind) (st : List TypeKind) : List TypeKind := if k = .void then st else k :: st

/-- The slots of a local of kind `k` at `n` exist. -/
def localFits (maxLocals n : ℕ) (k : TypeKind) : Bool := if k.isWide then n + 1 < maxLocals else n <
    maxLocals

/-- The frame after the instruction, where JVMS admits the instruction in the given one.
Subroutines are not typed. -/
def typeStep (maxLocals : ℕ) (insn : Instruction) (f : KindFrame) : Option KindFrame :=
  match loadKind insn.kind, storeKind insn.kind with
  | some k, _ =>
    if localFits maxLocals insn.index k ∧ f.locals insn.index = k then
      some { f with stack := k :: f.stack }
    else none
  | none, some k =>
    if localFits maxLocals insn.index k then
      (takeKinds [k] f.stack).map fun st => ⟨st, storeLocal insn.index k f.locals⟩
    else none
  | none, none =>
    if insn.kind = .jsr ∨ insn.kind = .ret then none
    else if insn.kind = .iinc then
      if insn.index < maxLocals ∧ f.locals insn.index = .int then some f else none
    else if insn.kind = .putfield then
      (takeKinds [insn.field.reprKind, .reference] f.stack).map fun st => { f with stack := st }
    else if insn.kind = .putstatic then
      (takeKinds [insn.field.reprKind] f.stack).map fun st => { f with stack := st }
    else if insn.kind.isShuffle then
      (shuffleKinds insn.kind f.stack).map fun st => { f with stack := st }
    else
      (stackEffect insn).bind fun e =>
        (takeKinds e.1 f.stack).map fun st => { f with stack := pushKind e.2 st }

/-- The kinds that an instruction takes from the stack, top first, and the kind that it leaves,
according to JVMS 6.5. The effects are those of the analyser, which looks at the operand of `putfield`
and `putstatic` without checking its kind. -/
def jvmsEffect (insn : Instruction) : Option (List TypeKind × TypeKind) :=
  if insn.kind = .jsr ∨ insn.kind = .ret then none
  else if insn.kind = .putfield then some ([insn.field.reprKind, .reference], .void)
  else if insn.kind = .putstatic then some ([insn.field.reprKind], .void)
  else stackEffect insn

/-- `f` may flow into a place where `g` is expected. -/
structure KindFrame.Assignable (f g : KindFrame) : Prop where
  stack : List.Forall₂ (fun a b => b = a ∨ b = .void) f.stack g.stack
  locals : ∀ s, g.locals s = .void ∨ g.locals s = f.locals s

def CodeMethod.entryLocals (m : CodeMethod) : List ValidationKind :=
  (if m.isStatic then [] else [if m.isCtor then .uninitThis else .object]) ++
    m.descriptor.args.map fun a => a.reprKind.validationKind

def CodeMethod.entryFrame (m : CodeMethod) : DeclaredFrame := ⟨0, m.entryLocals, []⟩

def KindFrame.ofDeclared (d : DeclaredFrame) : KindFrame where
  stack := (d.stack.map ValidationKind.representation).reverse
  locals s := (((localSlots d.locals)[s]?).map fun v => v.kind.representation).getD .void

def CodeMethod.declaredFrames (m : CodeMethod) (frames : List StackMapFrame) :
    Option (List DeclaredFrame) :=
  (expandFrames true m.entryFrame frames).map fun ds =>
    if (ds.head?.any fun d => d.pc = 0) then ds else m.entryFrame :: ds

def CodeMethod.encodes (m : CodeMethod) (frames : List StackMapFrame) : Prop :=
  m.stackMapTable = some (frames.flatMap StackMapFrame.encode) ∨
    m.stackMapTable = none ∧ frames = []

def declaredAt (code : List Instruction) (all : List DeclaredFrame) (i : ℕ) : Option KindFrame :=
  (code[i]?).bind fun insn => (all.find? fun d => d.pc = insn.originalPc).map KindFrame.ofDeclared

/-- The frame in which an instruction is checked: the declared one, or the one that the instruction
before it leaves. Dead code has none. -/
def kindsAt (maxLocals : ℕ) (code : List Instruction) (all : List DeclaredFrame) :
    ℕ → Option KindFrame
  | 0 => declaredAt code all 0
  | i + 1 =>
    match declaredAt code all (i + 1) with
    | some f => some f
    | none =>
      (code[i]?).bind fun insn =>
        if insn.kind.terminates then none
        else (kindsAt maxLocals code all i).bind (typeStep maxLocals insn)

/-- The method passes the type checker: every instruction is admitted in its frame, every jump and
every exception handler has a declared frame that the state flowing there is assignable to, and
the code does not run off its end. -/
structure KindConsistent (m : CodeMethod) (all : List DeclaredFrame) : Prop where
  boundaries : ∀ d ∈ all, ∃ insn ∈ m.code, insn.originalPc = d.pc
  entry : ∀ f, declaredAt m.code all 0 = some f → (KindFrame.ofDeclared m.entryFrame).Assignable f
  step : ∀ i insn f, m.code[i]? = some insn → kindsAt m.maxLocals m.code all i = some f →
    ∃ g, typeStep m.maxLocals insn f = some g ∧
      (∀ t ∈ insn.branchTargets, ∃ d, declaredAt m.code all t = some d ∧ g.Assignable d) ∧
      (insn.kind.terminates = false → i + 1 < m.code.length ∧
        ∀ d, declaredAt m.code all (i + 1) = some d → g.Assignable d)
  handlers : ∀ i f, kindsAt m.maxLocals m.code all i = some f →
    ∀ e ∈ m.exceptionTable, e.covers i →
      ∃ d, declaredAt m.code all e.handlerInsn = some d ∧
        (⟨[.reference], f.locals⟩ : KindFrame).Assignable d

end TraceJvm
