import TraceJvm.Classfile

/-! The four dispatch tables of the interpreter, as the set of kinds that have an entry. A kind
without an entry is a null function pointer in that table. -/
namespace TraceJvm

/-- `jmp_table_void`. -/
def inVoidTable : InsnKind → Bool
  | .nop | .aconstNull | .pop | .returnVoid | .getstatic | .invokedynamic | .new | .invokevirtual
  | .invokestatic | .ldc | .dload | .fload | .iload | .lload | .aload | .goto | .iconst | .dconst
  | .fconst | .lconst | .iinc | .invokeinterface | .newResolved | .invokevtableMonomorphic
  | .invokevtablePolymorphic | .invokeitableMonomorphic | .invokeitablePolymorphic
  | .invokespecialResolved | .invokestaticResolved | .invokecallsite | .invokesigpoly
  | .getstaticB | .getstaticC | .getstaticS | .getstaticI | .getstaticJ | .getstaticF
  | .getstaticD | .getstaticZ | .getstaticL | .hotAot | .hotArraysSupportUnsignedHashCode
  | .hotStringLatin1Equals => true
  | _ => false

/-- The entries of `jmp_table_double` that `jmp_table_void` does not have. -/
def inDoubleTableOnly : InsnKind → Bool
  | .d2f | .d2i | .d2l | .dadd | .dastore | .dcmpg | .dcmpl | .ddiv | .dmul | .dneg | .dreturn
  | .dsub | .dup | .dupX1 | .dupX2 | .dup2 | .dup2X1 | .dup2X2 | .pop2 | .swap | .putfield
  | .putstatic | .invokespecial | .dstore | .putfieldD | .putstaticD | .drem | .pow | .sin | .cos
  | .tan | .sqrt => true
  | _ => false

/-- The entries of `jmp_table_int` that `jmp_table_void` does not have. -/
def inIntTableOnly : InsnKind → Bool
  | .aaload | .aastore | .areturn | .arraylength | .athrow | .baload | .bastore | .caload
  | .castore | .daload | .dup | .dupX1 | .dupX2 | .dup2 | .dup2X1 | .dup2X2 | .faload | .i2b
  | .i2c | .i2d | .i2f | .i2l | .i2s | .iadd | .iaload | .iand | .iastore | .idiv | .imul | .ineg
  | .ior | .irem | .ireturn | .ishl | .ishr | .isub | .iushr | .ixor | .l2d | .l2f | .l2i | .ladd
  | .laload | .land | .lastore | .lcmp | .ldiv | .lmul | .lneg | .lor | .lrem | .lreturn | .lshl
  | .lshr | .lsub | .lushr | .lxor | .monitorenter | .monitorexit | .pop2 | .saload | .sastore
  | .swap | .anewarray | .checkcast | .getfield | .instanceof | .putfield | .putstatic
  | .invokespecial | .istore | .lstore | .astore | .ifAcmpeq | .ifAcmpne | .ifIcmpeq | .ifIcmpne
  | .ifIcmplt | .ifIcmpge | .ifIcmpgt | .ifIcmple | .ifeq | .ifne | .iflt | .ifge | .ifgt | .ifle
  | .ifnonnull | .ifnull | .multianewarray | .newarray | .tableswitch | .lookupswitch
  | .anewarrayResolved | .checkcastResolved | .instanceofResolved | .getfieldB | .getfieldC
  | .getfieldS | .getfieldI | .getfieldJ | .getfieldF | .getfieldD | .getfieldZ | .getfieldL
  | .putfieldB | .putfieldC | .putfieldS | .putfieldI | .putfieldJ | .putfieldZ | .putfieldL
  | .putstaticB | .putstaticC | .putstaticS | .putstaticI | .putstaticJ | .putstaticZ
  | .putstaticL => true
  | _ => false

/-- The entries of `jmp_table_float` that `jmp_table_void` does not have. -/
def inFloatTableOnly : InsnKind → Bool
  | .dup | .dupX1 | .dupX2 | .dup2 | .dup2X1 | .dup2X2 | .f2d | .f2i | .f2l | .fadd | .fastore
  | .fcmpg | .fcmpl | .fdiv | .fmul | .fneg | .freturn | .fsub | .pop2 | .swap | .putfield
  | .putstatic | .invokespecial | .fstore | .putfieldF | .putstaticF | .frem | .pow | .sin | .cos
  | .tan | .sqrt => true
  | _ => false

/-- `bytecode_tables[tos][kind]` is a handler. The tables for a value on top repeat every kind of
`jmp_table_void`. -/
def hasHandler : TosKind → InsnKind → Bool
  | .void, k => inVoidTable k
  | .double, k => inVoidTable k || inDoubleTableOnly k
  | .int, k => inVoidTable k || inIntTableOnly k
  | .float, k => inVoidTable k || inFloatTableOnly k

end TraceJvm
