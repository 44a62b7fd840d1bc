import TraceJvm.CodeParser
import Mathlib.Data.List.Forall2

/-! The instruction set of the Java virtual machine specification: the formats of the instructions as
byte strings, and what a decoded instruction has to be for each of them. -/
namespace TraceJvm

open ByteReader

def simpleOpcode : InsnKind → Option ℕ
  | .nop => some 0 | .aaload => some 50 | .aastore => some 83 | .aconstNull => some 1
  | .areturn => some 176 | .arraylength => some 190 | .athrow => some 191 | .baload => some 51
  | .bastore => some 84 | .caload => some 52 | .castore => some 85 | .d2f => some 144
  | .d2i => some 142 | .d2l => some 143 | .dadd => some 99 | .daload => some 49
  | .dastore => some 82 | .dcmpg => some 152 | .dcmpl => some 151 | .ddiv => some 111
  | .dmul => some 107 | .dneg => some 119 | .drem => some 115 | .dreturn => some 175
  | .dsub => some 103 | .dup => some 89 | .dupX1 => some 90 | .dupX2 => some 91
  | .dup2 => some 92 | .dup2X1 => some 93 | .dup2X2 => some 94 | .f2d => some 141
  | .f2i => some 139 | .f2l => some 140 | .fadd => some 98 | .faload => some 48
  | .fastore => some 81 | .fcmpg => some 150 | .fcmpl => some 149 | .fdiv => some 110
  | .fmul => some 106 | .fneg => some 118 | .frem => some 114 | .freturn => some 174
  | .fsub => some 102 | .i2b => some 145 | .i2c => some 146 | .i2d => some 135 | .i2f => some 134
  | .i2l => some 133 | .i2s => some 147 | .iadd => some 96 | .iaload => some 46
  | .iand => some 126 | .iastore => some 79 | .idiv => some 108 | .imul => some 104
  | .ineg => some 116 | .ior => some 128 | .irem => some 112 | .ireturn => some 172
  | .ishl => some 120 | .ishr => some 122 | .isub => some 100 | .iushr => some 124
  | .ixor => some 130 | .l2d => some 138 | .l2f => some 137 | .l2i => some 136 | .ladd => some 97
  | .laload => some 47 | .land => some 127 | .lastore => some 80 | .lcmp => some 148
  | .ldiv => some 109 | .lmul => some 105 | .lneg => some 117 | .lor => some 129
  | .lrem => some 113 | .lreturn => some 173 | .lshl => some 121 | .lshr => some 123
  | .lsub => some 101 | .lushr => some 125 | .lxor => some 131 | .monitorenter => some 194
  | .monitorexit => some 195 | .pop => some 87 | .pop2 => some 88 | .returnVoid => some 177
  | .saload => some 53 | .sastore => some 86 | .swap => some 95
  | _ => none

def localOpcode : InsnKind → Option ℕ
  | .iload => some 21 | .lload => some 22 | .fload => some 23 | .dload => some 24
  | .aload => some 25 | .istore => some 54 | .lstore => some 55 | .fstore => some 56
  | .dstore => some 57 | .astore => some 58 | .ret => some 169
  | _ => none

/-- The opcodes `iload_0` to `astore_0`; those for the next three local variables follow. -/
def shortLocalOpcode : InsnKind → Option ℕ
  | .iload => some 26 | .lload => some 30 | .fload => some 34 | .dload => some 38
  | .aload => some 42 | .istore => some 59 | .lstore => some 63 | .fstore => some 67
  | .dstore => some 71 | .astore => some 75
  | _ => none

def branchOpcode : InsnKind → Option ℕ
  | .ifeq => some 153 | .ifne => some 154 | .iflt => some 155 | .ifge => some 156
  | .ifgt => some 157 | .ifle => some 158 | .ifIcmpeq => some 159 | .ifIcmpne => some 160
  | .ifIcmplt => some 161 | .ifIcmpge => some 162 | .ifIcmpgt => some 163 | .ifIcmple => some 164
  | .ifAcmpeq => some 165 | .ifAcmpne => some 166 | .goto => some 167 | .jsr => some 168
  | .ifnull => some 198 | .ifnonnull => some 199
  | _ => none

/-- `goto_w` and `jsr_w`. -/
def wideBranchOpcode : InsnKind → Option ℕ
  | .goto => some 200 | .jsr => some 201
  | _ => none

def memberOpcode : InsnKind → Option ℕ
  | .getstatic => some 178 | .putstatic => some 179 | .getfield => some 180
  | .putfield => some 181 | .invokevirtual => some 182 | .invokespecial => some 183
  | .invokestatic => some 184 | .new => some 187 | .anewarray => some 189
  | .checkcast => some 192 | .instanceof => some 193
  | _ => none

/-- The instructions of the specification with their operands. `pad` are the bytes that align the
operands of a switch. -/
inductive JvmsInsn where
  | simple (k : InsnKind)
  | iconst (n : ℤ)
  | lconst (n : ℕ)
  | fconst (n : ℕ)
  | dconst (n : ℕ)
  | bipush (v : ℤ)
  | sipush (v : ℤ)
  | ldc (i : ℕ)
  | ldcW (i : ℕ)
  | ldc2W (i : ℕ)
  | localVar (k : InsnKind) (i : ℕ)
  | shortLocal (k : InsnKind) (i : ℕ)
  | wideLocal (k : InsnKind) (i : ℕ)
  | iinc (i : ℕ) (c : ℤ)
  | wideIinc (i : ℕ) (c : ℤ)
  | branch (k : InsnKind) (offset : ℤ)
  | wideBranch (k : InsnKind) (offset : ℤ)
  | tableswitch (pad : List UInt8) (default low high : ℤ) (offsets : List ℤ)
  | lookupswitch (pad : List UInt8) (default : ℤ) (pairs : List (ℤ × ℤ))
  | member (k : InsnKind) (i : ℕ)
  | invokeinterface (i count pad0 : ℕ)
  | invokedynamic (i pad0 : ℕ)
  | newarray (atype : ℕ)
  | multianewarray (i dimensions : ℕ)

def opcodeBytes : Option ℕ → List UInt8
  | some o => bytes 1 o
  | none => []

namespace JvmsInsn

def encode : JvmsInsn → List UInt8
  | .simple k => opcodeBytes (simpleOpcode k)
  | .iconst n => bytes 1 (3 + n).toNat
  | .lconst n => bytes 1 (9 + n)
  | .fconst n => bytes 1 (11 + n)
  | .dconst n => bytes 1 (14 + n)
  | .bipush v => bytes 1 16 ++ signedBytes 1 v
  | .sipush v => bytes 1 17 ++ signedBytes 2 v
  | .ldc i => bytes 1 18 ++ bytes 1 i
  | .ldcW i => bytes 1 19 ++ bytes 2 i
  | .ldc2W i => bytes 1 20 ++ bytes 2 i
  | .localVar k i => opcodeBytes (localOpcode k) ++ bytes 1 i
  | .shortLocal k i => opcodeBytes ((shortLocalOpcode k).map (· + i))
  | .wideLocal k i => bytes 1 196 ++ opcodeBytes (localOpcode k) ++ bytes 2 i
  | .iinc i c => bytes 1 132 ++ bytes 1 i ++ signedBytes 1 c
  | .wideIinc i c => bytes 1 196 ++ bytes 1 132 ++ bytes 2 i ++ signedBytes 2 c
  | .branch k offset => opcodeBytes (branchOpcode k) ++ signedBytes 2 offset
  | .wideBranch k offset => opcodeBytes (wideBranchOpcode k) ++ signedBytes 4 offset
  | .tableswitch pad default low high offsets =>
      bytes 1 170 ++ pad ++ signedBytes 4 default ++ signedBytes 4 low ++ signedBytes 4 high ++
        offsets.flatMap (signedBytes 4)
  | .lookupswitch pad default pairs =>
      bytes 1 171 ++ pad ++ signedBytes 4 default ++ signedBytes 4 pairs.length ++
        pairs.flatMap fun p => signedBytes 4 p.1 ++ signedBytes 4 p.2
  | .member k i => opcodeBytes (memberOpcode k) ++ bytes 2 i
  | .invokeinterface i count pad0 => bytes 1 185 ++ bytes 2 i ++ bytes 1 count ++ bytes 1 pad0
  | .invokedynamic i pad0 => bytes 1 186 ++ bytes 2 i ++ bytes 2 pad0
  | .newarray atype => bytes 1 188 ++ bytes 1 atype
  | .multianewarray i dimensions => bytes 1 197 ++ bytes 2 i ++ bytes 1 dimensions

/-- The operands of a switch at `pc` begin at the next multiple of four behind the opcode. -/
def Aligned (pc : ℕ) (pad : List UInt8) : Prop := pad.length < 4 ∧ (pc + 1 + pad.length) % 4 = 0

/-- The opcode exists and the operands are in the range of their format, for an instruction at
`pc`. -/
def Valid (pc : ℕ) : JvmsInsn → Prop
  | .simple k => (simpleOpcode k).isSome
  | .iconst n => -1 ≤ n ∧ n ≤ 5
  | .lconst n => n ≤ 1
  | .fconst n => n ≤ 2
  | .dconst n => n ≤ 1
  | .bipush v => FitsSigned 1 v
  | .sipush v => FitsSigned 2 v
  | .ldc i => i < 256
  | .ldcW i | .ldc2W i => i < 256 ^ 2
  | .localVar k i => (localOpcode k).isSome ∧ i < 256
  | .shortLocal k i => (shortLocalOpcode k).isSome ∧ i < 4
  | .wideLocal k i => (localOpcode k).isSome ∧ i < 256 ^ 2
  | .iinc i c => i < 256 ∧ FitsSigned 1 c
  | .wideIinc i c => i < 256 ^ 2 ∧ FitsSigned 2 c
  | .branch k offset => (branchOpcode k).isSome ∧ FitsSigned 2 offset
  | .wideBranch k offset => (wideBranchOpcode k).isSome ∧ FitsSigned 4 offset
  | .tableswitch pad default low high offsets =>
      Aligned pc pad ∧ FitsSigned 4 default ∧ FitsSigned 4 low ∧ FitsSigned 4 high ∧
        (offsets.length : ℤ) = high - low + 1 ∧ ∀ o ∈ offsets, FitsSigned 4 o
  | .lookupswitch pad default pairs =>
      Aligned pc pad ∧ FitsSigned 4 default ∧ FitsSigned 4 pairs.length ∧
        ∀ p ∈ pairs, FitsSigned 4 p.1 ∧ FitsSigned 4 p.2
  | .member k i => (memberOpcode k).isSome ∧ i < 256 ^ 2
  | .invokeinterface i count pad0 => i < 256 ^ 2 ∧ count < 256 ∧ pad0 < 256
  | .invokedynamic i pad0 => i < 256 ^ 2 ∧ pad0 < 256 ^ 2
  | .newarray atype => atype < 256
  | .multianewarray i dimensions => i < 256 ^ 2 ∧ dimensions < 256

end JvmsInsn

def jvmsKinds : InsnKind → List CpKind
  | .getstatic | .putstatic | .getfield | .putfield => [.fieldRef]
  | .invokevirtual => [.methodRef]
  | .invokespecial | .invokestatic => [.methodRef, .interfaceMethodRef]
  | .invokeinterface => [.interfaceMethodRef]
  | .invokedynamic => [.invokeDynamic]
  | .new | .anewarray | .checkcast | .instanceof | .multianewarray => [.classInfo]
  | .ldc => [.string, .classInfo, .methodHandle, .methodType, .dynamicConstant]
  | _ => []

def acceptedKinds : InsnKind → List CpKind
  | .invokevirtual => [.methodRef, .interfaceMethodRef]
  | k => jvmsKinds k

/-- The constant pool entry `i` may be the operand of `k`. -/
def RefersTo (kinds : InsnKind → List CpKind) (cp : List CpEntry) (k : InsnKind) (i : ℕ) : Prop :=
  ∃ e, cp[i]? = some e ∧ e.kind ∈ kinds k

/-- The array types of `newarray`. -/
def jvmsArrayType : TypeKind → Option ℕ
  | .boolean => some 4 | .char => some 5 | .float => some 6 | .double => some 7 | .byte => some 8
  | .short => some 9 | .int => some 10 | .long => some 11
  | _ => none

/-- The decoded form of an instruction at `pc`: constants are taken from the pool, the short and the
wide forms are brought together, and `target` relates a byte position to the target of a branch. -/
def JvmsInsn.Denotes (kinds : InsnKind → List CpKind) (cp : List CpEntry) (target : ℤ → ℕ → Prop)
    (pc : ℕ) (b : BytecodeInsn) : JvmsInsn → Prop
  | .simple k => b = ⟨k, pc, .none⟩
  | .iconst n => b = ⟨.iconst, pc, .integerImm n⟩
  | .lconst n => b = ⟨.lconst, pc, .integerImm n⟩
  | .fconst n => b = ⟨.fconst, pc, .fImm (fconstBits n)⟩
  | .dconst n => b = ⟨.dconst, pc, .dImm (dconstBits n)⟩
  | .bipush v | .sipush v => b = ⟨.iconst, pc, .integerImm v⟩
  | .ldc i | .ldcW i =>
      (∃ v, cp[i]? = some (.integer v) ∧ b = ⟨.iconst, pc, .integerImm v⟩) ∨
      (∃ f, cp[i]? = some (.float f) ∧ b = ⟨.fconst, pc, .fImm f⟩) ∨
      RefersTo kinds cp .ldc i ∧ b = ⟨.ldc, pc, .cp i⟩
  | .ldc2W i =>
      (∃ v, cp[i]? = some (.long v) ∧ b = ⟨.lconst, pc, .integerImm v⟩) ∨
      ∃ d, cp[i]? = some (.double d) ∧ b = ⟨.dconst, pc, .dImm d⟩
  | .localVar k i | .shortLocal k i | .wideLocal k i => b = ⟨k, pc, .index i⟩
  | .iinc i c | .wideIinc i c => b = ⟨.iinc, pc, .iinc i c⟩
  | .branch k offset | .wideBranch k offset =>
      ∃ t, target (pc + offset) t ∧ b = ⟨k, pc, .index t⟩
  | .tableswitch _ default low high offsets =>
      ∃ d ts, target (pc + default) d ∧
        List.Forall₂ (fun (o : ℤ) t => target (pc + o) t) offsets ts ∧
        b = ⟨.tableswitch, pc, .tableswitch d low high ts⟩
  | .lookupswitch _ default pairs =>
      ∃ d ts, target (pc + default) d ∧
        List.Forall₂ (fun (p : ℤ × ℤ) t => target (pc + p.2) t) pairs ts ∧
        b = ⟨.lookupswitch, pc, .lookupswitch d (pairs.map Prod.fst) ts⟩
  | .member k i => RefersTo kinds cp k i ∧ b = ⟨k, pc, .cp i⟩
  | .invokeinterface i _ _ =>
      RefersTo kinds cp .invokeinterface i ∧ b = ⟨.invokeinterface, pc, .cp i⟩
  | .invokedynamic i _ => RefersTo kinds cp .invokedynamic i ∧ b = ⟨.invokedynamic, pc, .cp i⟩
  | .newarray atype => ∃ k, jvmsArrayType k = some atype ∧ b = ⟨.newarray, pc, .arrayType k⟩
  | .multianewarray i dimensions =>
      RefersTo kinds cp .multianewarray i ∧
        b = ⟨.multianewarray, pc, .multianewarray i dimensions⟩

def startsFrom (pc : ℕ) : List JvmsInsn → List ℕ
  | [] => []
  | j :: js => pc :: startsFrom (pc + j.encode.length) js

def ValidFrom (pc : ℕ) : List JvmsInsn → Prop
  | [] => True
  | j :: js => j.Valid pc ∧ ValidFrom (pc + j.encode.length) js

/-- The instruction with index `t` starts at the position `p`. -/
def StartsAt (starts : List ℕ) (p : ℤ) (t : ℕ) : Prop := ∃ n : ℕ, starts[t]? = some n ∧ (n : ℤ) = p

structure JvmsException where
  startPc : ℕ
  endPc : ℕ
  handlerPc : ℕ
  catchType : ℕ

def JvmsException.encode (x : JvmsException) : List UInt8 :=
  bytes 2 x.startPc ++ bytes 2 x.endPc ++ bytes 2 x.handlerPc ++ bytes 2 x.catchType

def JvmsException.Valid (codeLength : ℕ) (x : JvmsException) : Prop :=
  x.startPc < x.endPc ∧ x.endPc ≤ codeLength ∧ x.handlerPc < codeLength ∧ x.endPc < 256 ^ 2 ∧
    x.handlerPc < 256 ^ 2 ∧ x.catchType < 256 ^ 2

/-- The positions of an entry are those of instructions; the end of a range may also be the end of
the code, which `codeEnd` stands for. -/
def JvmsException.Denotes (cp : List CpEntry) (starts : List ℕ) (codeLength codeEnd : ℕ)
    (x : JvmsException) (e : ExceptionTableEntry) : Prop :=
  x.Valid codeLength ∧ StartsAt starts x.startPc e.startInsn ∧
    (StartsAt starts x.endPc e.endInsn ∨ x.endPc = codeLength ∧ e.endInsn = codeEnd) ∧
    StartsAt starts x.handlerPc e.handlerInsn ∧
    (x.catchType = 0 ∧ e.catchType = none ∨
      (∃ c, cp[x.catchType]? = some c ∧ c.kind = .classInfo) ∧ e.catchType = some x.catchType)

/-- The byte string of a `Code` attribute up to its own attributes. -/
def codeAttributeBytes (maxStack maxLocals : ℕ) (js : List JvmsInsn) (xs : List JvmsException) :
    List UInt8 :=
  bytes 2 maxStack ++ bytes 2 maxLocals ++ bytes 4 (js.flatMap JvmsInsn.encode).length ++
    js.flatMap JvmsInsn.encode ++ bytes 2 xs.length ++ xs.flatMap JvmsException.encode

/-- The parsed code is the instruction sequence `js` with the exception table `xs`. -/
structure CodeDenotes (kinds : InsnKind → List CpKind) (cp : List CpEntry) (codeEnd : ℕ)
    (js : List JvmsInsn) (xs : List JvmsException) (code : List BytecodeInsn)
    (table : List ExceptionTableEntry) : Prop where
  valid : ValidFrom 0 js
  insns : List.Forall₂ (fun p b => JvmsInsn.Denotes kinds cp (StartsAt (startsFrom 0 js)) p.1 b p.2)
    ((startsFrom 0 js).zip js) code
  count : code.length = js.length
  exceptions : List.Forall₂ (JvmsException.Denotes cp (startsFrom 0 js)
    (js.flatMap JvmsInsn.encode).length codeEnd) xs table

end TraceJvm
