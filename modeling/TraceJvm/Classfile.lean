import Mathlib.Data.Int.Notation
import Mathlib.Data.Nat.Notation

/-! Enumerations of the class file format that the interpreter and the analyser share. -/
namespace TraceJvm

/-- `insn_code_kind`, in the order of the C enumeration. -/
inductive InsnKind where
  | nop | aaload | aastore | aconstNull | areturn | arraylength | athrow | baload | bastore
  | caload | castore | d2f | d2i | d2l | dadd | daload | dastore | dcmpg | dcmpl | ddiv | dmul
  | dneg | drem | dreturn | dsub | dup | dupX1 | dupX2 | dup2 | dup2X1 | dup2X2 | f2d | f2i
  | f2l | fadd | faload | fastore | fcmpg | fcmpl | fdiv | fmul | fneg | frem | freturn | fsub
  | i2b | i2c | i2d | i2f | i2l | i2s | iadd | iaload | iand | iastore | idiv | imul | ineg
  | ior | irem | ireturn | ishl | ishr | isub | iushr | ixor | l2d | l2f | l2i | ladd | laload
  | land | lastore | lcmp | ldiv | lmul | lneg | lor | lrem | lreturn | lshl | lshr | lsub
  | lushr | lxor | monitorenter | monitorexit | pop | pop2 | returnVoid | saload | sastore
  | swap | anewarray | checkcast | getfield | getstatic | instanceof | invokedynamic | new
  | putfield | putstatic | invokevirtual | invokespecial | invokestatic | ldc | dload | fload
  | iload | lload | dstore | fstore | istore | lstore | aload | astore | goto | jsr | ifAcmpeq
  | ifAcmpne | ifIcmpeq | ifIcmpne | ifIcmplt | ifIcmpge | ifIcmpgt | ifIcmple | ifeq | ifne
  | iflt | ifge | ifgt | ifle | ifnonnull | ifnull | iconst | dconst | fconst | lconst | iinc
  | invokeinterface | multianewarray | newarray | tableswitch | lookupswitch | ret
  | anewarrayResolved | checkcastResolved | instanceofResolved | newResolved
  | invokevtableMonomorphic | invokevtablePolymorphic | invokeitableMonomorphic
  | invokeitablePolymorphic | invokespecialResolved | invokestaticResolved | invokecallsite
  | invokesigpoly | getfieldB | getfieldC | getfieldS | getfieldI | getfieldJ | getfieldF
  | getfieldD | getfieldZ | getfieldL | putfieldB | putfieldC | putfieldS | putfieldI
  | putfieldJ | putfieldF | putfieldD | putfieldZ | putfieldL | getstaticB | getstaticC
  | getstaticS | getstaticI | getstaticJ | getstaticF | getstaticD | getstaticZ | getstaticL
  | putstaticB | putstaticC | putstaticS | putstaticI | putstaticJ | putstaticF | putstaticD
  | putstaticZ | putstaticL | pow | sin | cos | tan | sqrt | hotAot
  | hotArraysSupportUnsignedHashCode | hotStringLatin1Equals
  deriving DecidableEq

/-- `type_kind`, in the order of the C enumeration. -/
inductive TypeKind where
  | boolean | char | float | double | byte | short | int | long | void | reference
  deriving DecidableEq

/-- `reduced_tos_kind`: what the interpreter distinguishes about the top of the stack. -/
inductive TosKind where
  | void | double | int | float
  deriving DecidableEq

/-- `is_kind_wide`: the value takes up two formal slots. -/
def TypeKind.isWide : TypeKind → Bool
  | .long | .double => true
  | _ => false

/-- `kind_to_representable_kind`. -/
def TypeKind.representable : TypeKind → TypeKind
  | .boolean | .char | .byte | .short | .int => .int
  | k => k

/-- `field_descriptor`; the kind `void` is that of a missing result and has no dimensions. -/
structure FieldDescriptor where
  baseKind : TypeKind
  dimensions : ℕ
  void_dimensions : baseKind = .void → dimensions = 0
  deriving DecidableEq

def FieldDescriptor.reprKind (d : FieldDescriptor) : TypeKind :=
  if d.dimensions ≠ 0 then .reference else d.baseKind.representable

/-- `is_field_wide`. -/
def FieldDescriptor.isWide (d : FieldDescriptor) : Bool :=
  d.baseKind.isWide && d.dimensions = 0

def FieldDescriptor.ofKind (k : TypeKind) : FieldDescriptor := ⟨k, 0, fun _ => rfl⟩

theorem FieldDescriptor.isWide_eq (d : FieldDescriptor) : d.isWide = d.reprKind.isWide := by
  unfold isWide reprKind
  by_cases hd : d.dimensions = 0
  · cases hb : d.baseKind <;> simp [hd, TypeKind.representable, TypeKind.isWide]
  · simp [hd, TypeKind.isWide]

structure MethodDescriptor where
  args : List FieldDescriptor
  returnType : FieldDescriptor
  args_ne_void : ∀ a ∈ args, a.baseKind ≠ .void
  deriving DecidableEq

def MethodDescriptor.empty : MethodDescriptor := ⟨[], .ofKind .void, by simp⟩

theorem FieldDescriptor.reference_ne_void :
    ∀ a ∈ [FieldDescriptor.ofKind .reference], a.baseKind ≠ .void := by decide

theorem FieldDescriptor.long_ne_void :
    ∀ a ∈ [FieldDescriptor.ofKind .long], a.baseKind ≠ .void := by decide

/-- `bytecode_insn` as the parser hands it to the analyser, with the members of its union side by
side. `index` is the local variable or the branch target, `switchTargets` starts with the default
target. -/
structure Instruction where
  kind : InsnKind
  originalPc : ℕ
  index : ℕ := 0
  delta : ℤ := 0
  switchTargets : List ℕ := []
  field : FieldDescriptor := .ofKind .void
  method : MethodDescriptor := .empty
  dimensions : ℕ := 0
  tosBefore : TosKind := .void
  tosAfter : TosKind := .void
  deriving DecidableEq

/-- `exception_table_entry`, in instruction indices. -/
structure ExceptionEntry where
  startInsn : ℕ
  endInsn : ℕ
  handlerInsn : ℕ
  deriving DecidableEq

def ExceptionEntry.covers (e : ExceptionEntry) (i : ℕ) : Bool := e.startInsn ≤ i && i < e.endInsn

/-- `attribute_code`. The parser lists the instructions in the order of their byte pc, the first
one at 0. `lvt` holds the local indices of the `LocalVariableTable`. -/
structure CodeAttribute where
  maxStack : ℕ
  maxLocals : ℕ
  code : List Instruction
  exceptionTable : List ExceptionEntry
  lvt : List ℕ
  stackMapTable : Option (List UInt8)
  pc_zero : ∀ i, code[0]? = some i → i.originalPc = 0
  pc_lt : code.Pairwise fun i j => i.originalPc < j.originalPc

/-- `cp_method` with its code. `missingSmt` is set for old class files without a table only. -/
structure CodeMethod extends CodeAttribute where
  isStatic : Bool
  isCtor : Bool
  descriptor : MethodDescriptor
  missingSmt : Bool
  missing_eq : missingSmt = true → stackMapTable = none

theorem CodeMethod.noTable_eq (_ : false = true) : (none : Option (List UInt8)) = none := rfl

end TraceJvm
