import TraceJvm.Classfile
import TraceJvm.Lib.ByteReader
import TraceJvm.Lib.OrderedMap

/-! The class file parser on `Code` attributes: `parse_insn_impl`, the translation of byte positions
into instruction indices and `parse_code_attribute`. -/
namespace TraceJvm

open ByteReader

inductive CpKind where
  | invalid | utf8 | integer | float | long | double | classInfo | string | fieldRef | methodRef
  | interfaceMethodRef | nameAndType | methodHandle | methodType | invokeDynamic | dynamicConstant
  | module | package
  deriving DecidableEq

/-- `cp_entry`, with the values of the numbers only. `float` holds the bits of the single precision
value. -/
inductive CpEntry where
  | integer (v : ℤ)
  | float (bits : UInt32)
  | long (v : ℤ)
  | double (bits : UInt64)
  | other (kind : CpKind) (not_number : kind ∉ [.integer, .float, .long, .double])
  deriving DecidableEq

def CpEntry.kind : CpEntry → CpKind
  | .integer _ => .integer
  | .float _ => .float
  | .long _ => .long
  | .double _ => .double
  | .other k _ => k

/-- The messages of `format_error_static` and `format_error_dynamic`, with their arguments. -/
inductive FormatError where
  | text (message : String)
  /-- The message is followed by a number. -/
  | number (message : String) (n : ℕ)
  /-- "Invalid constant pool entry index %d (pool size %d) while reading %s" -/
  | cpIndex (index size : ℕ) (reason : String)
  /-- "Unexpected constant pool entry kind %d at index %d (expected one of: [ %s]) while reading
  %s" -/
  | cpKind (kind : CpKind) (index : ℕ) (expected : List CpKind) (reason : String)
  deriving DecidableEq

abbrev CodeParser := Parser FormatError

/-- The union of `bytecode_insn`. An entry of the constant pool is given by its index. -/
inductive InsnOperand where
  | none
  /-- A local variable or a branch target. -/
  | index (i : ℕ)
  | integerImm (v : ℤ)
  | fImm (bits : UInt32)
  | dImm (bits : UInt64)
  | cp (i : ℕ)
  | iinc (index : ℕ) (const : ℤ)
  | arrayType (k : TypeKind)
  | tableswitch (defaultTarget : ℕ) (low high : ℤ) (targets : List ℕ)
  | lookupswitch (defaultTarget : ℕ) (keys : List ℤ) (targets : List ℕ)
  | multianewarray (cp dimensions : ℕ)
  deriving DecidableEq

/-- `bytecode_insn` as the parser fills it in. -/
structure BytecodeInsn where
  kind : InsnKind
  originalPc : ℕ
  operand : InsnOperand
  deriving DecidableEq

def nextU8 (reason : String) : CodeParser ℕ := Parser.next 1 (.text reason)
def nextU16 (reason : String) : CodeParser ℕ := Parser.next 2 (.text reason)
def nextU32 (reason : String) : CodeParser ℕ := Parser.next 4 (.text reason)
def nextS8 (reason : String) : CodeParser ℤ := Parser.nextSigned 1 (.text reason)
def nextS16 (reason : String) : CodeParser ℤ := Parser.nextSigned 2 (.text reason)
def nextS32 (reason : String) : CodeParser ℤ := Parser.nextSigned 4 (.text reason)

/-- `checked_cp_entry` and `check_cp_entry` -/
def checkedCpEntry (cp : List CpEntry) (index : ℕ) (expected : List CpKind) (reason : String) :
    CodeParser CpEntry :=
  match cp[index]? with
  | none => throw (.cpIndex index cp.length reason)
  | some e =>
      if e.kind ∈ expected then pure e else throw (.cpKind e.kind index expected reason)

def checkedPc (maxPc insnPc : ℕ) (offset : ℤ) : CodeParser ℕ :=
  let target : ℤ := insnPc + offset
  if 2 ^ 31 ≤ target ∨ target < 0 ∨ maxPc ≤ target then
    throw (.text "Branch target out of bounds")
  else pure target.toNat

/-- The number of bytes between the opcode of a switch at `pc` and its operands. -/
def paddingOf (pc : ℕ) : ℕ := (4 - (pc + 1) % 4) % 4

def skipPadding : ℕ → CodeParser Unit
  | 0 => pure ()
  | n + 1 => do
      let _ ← nextU8 "tableswitch padding"
      skipPadding n

def readTargets (maxPc pc : ℕ) : ℕ → CodeParser (List ℕ)
  | 0 => pure []
  | n + 1 => do
      let offset ← nextS32 "tableswitch target"
      let target ← checkedPc maxPc pc offset
      let targets ← readTargets maxPc pc n
      pure (target :: targets)

def parseTableswitchInsn (maxPc pc : ℕ) : CodeParser (InsnKind × InsnOperand) := do
  skipPadding (paddingOf pc)
  let offset ← nextS32 "tableswitch default target"
  let defaultTarget ← checkedPc maxPc pc offset
  let low ← nextS32 "tableswitch low"
  let high ← nextS32 "tableswitch high"
  let targetsCount : ℤ := high - low + 1
  if 2 ^ 15 < targetsCount then throw (.text "tableswitch instruction is too large")
  else if targetsCount ≤ 0 then throw (.text "tableswitch high < low")
  else
    let targets ← readTargets maxPc pc targetsCount.toNat
    pure (.tableswitch, .tableswitch defaultTarget low high targets)

def readPairs (maxPc pc : ℕ) : ℕ → CodeParser (List ℤ × List ℕ)
  | 0 => pure ([], [])
  | n + 1 => do
      let key ← nextS32 "lookupswitch key"
      let offset ← nextS32 "lookupswitch target"
      let target ← checkedPc maxPc pc offset
      let (keys, targets) ← readPairs maxPc pc n
      pure (key :: keys, target :: targets)

def parseLookupswitchInsn (maxPc pc : ℕ) : CodeParser (InsnKind × InsnOperand) := do
  skipPadding (paddingOf pc)
  let offset ← nextS32 "lookupswitch default target"
  let defaultTarget ← checkedPc maxPc pc offset
  let pairsCount ← nextS32 "lookupswitch pairs count"
  if 2 ^ 15 < pairsCount ∨ pairsCount < 0 then
    throw (.text "lookupswitch instruction is too large")
  else
    let (keys, targets) ← readPairs maxPc pc pairsCount.toNat
    pure (.lookupswitch, .lookupswitch defaultTarget keys targets)

def parseAtype : ℕ → Option TypeKind
  | 4 => some .boolean
  | 5 => some .char
  | 6 => some .float
  | 7 => some .double
  | 8 => some .byte
  | 9 => some .short
  | 10 => some .int
  | 11 => some .long
  | _ => none

def plainInsns : List (ℕ × InsnKind) :=
  [(0x00, .nop), (0x01, .aconstNull), (0x2e, .iaload), (0x2f, .laload), (0x30, .faload),
    (0x31, .daload), (0x32, .aaload), (0x33, .baload), (0x34, .caload), (0x35, .saload),
    (0x4f, .iastore), (0x50, .lastore), (0x51, .fastore), (0x52, .dastore), (0x53, .aastore),
    (0x54, .bastore), (0x55, .castore), (0x56, .sastore), (0x57, .pop), (0x58, .pop2),
    (0x59, .dup), (0x5a, .dupX1), (0x5b, .dupX2), (0x5c, .dup2), (0x5d, .dup2X1),
    (0x5e, .dup2X2), (0x5f, .swap), (0x60, .iadd), (0x61, .ladd), (0x62, .fadd), (0x63, .dadd),
    (0x64, .isub), (0x65, .lsub), (0x66, .fsub), (0x67, .dsub), (0x68, .imul), (0x69, .lmul),
    (0x6a, .fmul), (0x6b, .dmul), (0x6c, .idiv), (0x6d, .ldiv), (0x6e, .fdiv), (0x6f, .ddiv),
    (0x70, .irem), (0x71, .lrem), (0x72, .frem), (0x73, .drem), (0x74, .ineg), (0x75, .lneg),
    (0x76, .fneg), (0x77, .dneg), (0x78, .ishl), (0x79, .lshl), (0x7a, .ishr), (0x7b, .lshr),
    (0x7c, .iushr), (0x7d, .lushr), (0x7e, .iand), (0x7f, .land), (0x80, .ior), (0x81, .lor),
    (0x82, .ixor), (0x83, .lxor), (0x85, .i2l), (0x86, .i2f), (0x87, .i2d), (0x88, .l2i),
    (0x89, .l2f), (0x8a, .l2d), (0x8b, .f2i), (0x8c, .f2l), (0x8d, .f2d), (0x8e, .d2i),
    (0x8f, .d2l), (0x90, .d2f), (0x91, .i2b), (0x92, .i2c), (0x93, .i2s), (0x94, .lcmp),
    (0x95, .fcmpl), (0x96, .fcmpg), (0x97, .dcmpl), (0x98, .dcmpg), (0xac, .ireturn),
    (0xad, .lreturn), (0xae, .freturn), (0xaf, .dreturn), (0xb0, .areturn), (0xb1, .returnVoid),
    (0xbe, .arraylength), (0xbf, .athrow), (0xc2, .monitorenter), (0xc3, .monitorexit)]

def localInsns : List (ℕ × InsnKind × String) :=
  [(0x15, .iload, "iload index"), (0x16, .lload, "lload index"), (0x17, .fload, "fload index"),
    (0x18, .dload, "dload index"), (0x19, .aload, "aload index"), (0x36, .istore, "istore index"),
    (0x37, .lstore, "lstore index"), (0x38, .fstore, "fstore index"),
    (0x39, .dstore, "dstore index"), (0x3a, .astore, "astore index"), (0xa9, .ret, "ret index")]

/-- The same instructions behind `wide`. -/
def wideInsns : List (ℕ × InsnKind × String) :=
  [(0x15, .iload, "wide iload index"), (0x16, .lload, "wide lload index"),
    (0x17, .fload, "wide fload index"), (0x18, .dload, "wide dload index"),
    (0x19, .aload, "wide aload index"), (0x36, .istore, "wide istore index"),
    (0x37, .lstore, "wide lstore index"), (0x38, .fstore, "wide fstore index"),
    (0x39, .dstore, "wide dstore index"), (0x3a, .astore, "wide astore index"),
    (0xa9, .ret, "wide ret index")]

def shortLocals : List (ℕ × InsnKind) :=
  [(0x1a, .iload), (0x1e, .lload), (0x22, .fload), (0x26, .dload), (0x2a, .aload),
    (0x3b, .istore), (0x3f, .lstore), (0x43, .fstore), (0x47, .dstore), (0x4b, .astore)]

def branchInsns : List (ℕ × InsnKind × String) :=
  [(0x99, .ifeq, "if_eq offset"), (0x9a, .ifne, "if_ne offset"), (0x9b, .iflt, "if_lt offset"),
    (0x9c, .ifge, "if_ge offset"), (0x9d, .ifgt, "if_gt offset"), (0x9e, .ifle, "if_le offset"),
    (0x9f, .ifIcmpeq, "if_icmpeq offset"), (0xa0, .ifIcmpne, "if_icmpne offset"),
    (0xa1, .ifIcmplt, "if_icmplt offset"), (0xa2, .ifIcmpge, "if_icmpge offset"),
    (0xa3, .ifIcmpgt, "if_icmpgt offset"), (0xa4, .ifIcmple, "if_icmple offset"),
    (0xa5, .ifAcmpeq, "if_acmpeq offset"), (0xa6, .ifAcmpne, "if_acmpne offset"),
    (0xa7, .goto, "goto offset"), (0xa8, .jsr, "jsr offset"), (0xc6, .ifnull, "ifnull offset"),
    (0xc7, .ifnonnull, "ifnonnull offset")]

/-- Instructions with a constant pool index in two bytes: the kinds that it may have and the reasons
given while the index is read and checked. -/
def cpInsns : List (ℕ × InsnKind × List CpKind × String × String) :=
  [(0xb2, .getstatic, [.fieldRef], "getstatic index", "getstatic field ref"),
    (0xb3, .putstatic, [.fieldRef], "putstatic index", "putstatic field ref"),
    (0xb4, .getfield, [.fieldRef], "getfield index", "getfield field ref"),
    (0xb5, .putfield, [.fieldRef], "putfield index", "putfield field ref"),
    (0xb6, .invokevirtual, [.methodRef, .interfaceMethodRef], "invokevirtual index",
      "invokevirtual method ref"),
    (0xb7, .invokespecial, [.methodRef, .interfaceMethodRef], "invokespecial index",
      "invokespecial method ref"),
    (0xb8, .invokestatic, [.methodRef, .interfaceMethodRef], "invokestatic index",
      "invokestatic method ref"),
    (0xbb, .new, [.classInfo], "new index", "new class"),
    (0xbd, .anewarray, [.classInfo], "anewarray index", "anewarray class"),
    (0xc0, .checkcast, [.classInfo], "checkcast index", "checkcast class"),
    (0xc1, .instanceof, [.classInfo], "instanceof index", "instanceof class")]

/-- The small constants of `fconst` in single precision. -/
def fconstBits : ℕ → UInt32
  | 0 => 0
  | 1 => 0x3f800000
  | _ => 0x40000000

def dconstBits : ℕ → UInt64
  | 0 => 0
  | _ => 0x3ff0000000000000

/-- `ldc` and `ldc_w`, with the index. -/
def parseLdc (cp : List CpEntry) (index : ℕ) : CodeParser (InsnKind × InsnOperand) := do
  let ent ← checkedCpEntry cp index [.integer, .float, .string, .classInfo] "ldc/ldc_w index"
  match ent with
  | .integer v => pure (.iconst, .integerImm v)
  | .float bits => pure (.fconst, .fImm bits)
  | _ => pure (.ldc, .cp index)

def parseLdc2W (cp : List CpEntry) (index : ℕ) : CodeParser (InsnKind × InsnOperand) := do
  let ent ← checkedCpEntry cp index [.double, .long] "ldc2_w index"
  match ent with
  | .double bits => pure (.dconst, .dImm bits)
  | .long v => pure (.lconst, .integerImm v)
  | _ => pure (.lconst, .integerImm 0)

def parseWide : CodeParser (InsnKind × InsnOperand) := do
  let opcode ← nextU8 "widened opcode"
  match OrderedMap.get wideInsns opcode with
  | some (kind, reason) =>
      let index ← nextU16 reason
      pure (kind, .index index)
  | none =>
      if opcode = 0x84 then
        let index ← nextU16 "wide iinc index"
        let const ← nextS16 "wide iinc const"
        pure (.iinc, .iinc index const)
      else throw (.number "invalid wide opcode " 0xc4)

def parseSpecial (cp : List CpEntry) (maxPc pc opcode : ℕ) : CodeParser (InsnKind × InsnOperand) :=
  match opcode with
  | 0x10 => do
      let v ← nextS8 "bipush immediate"
      pure (.iconst, .integerImm v)
  | 0x11 => do
      let v ← nextS16 "sipush immediate"
      pure (.iconst, .integerImm v)
  | 0x12 => do
      let index ← nextU8 "ldc index"
      parseLdc cp index
  | 0x13 => do
      let index ← nextU16 "ldc_w index"
      parseLdc cp index
  | 0x14 => do
      let index ← nextU16 "ldc2_w index"
      parseLdc2W cp index
  | 0x84 => do
      let index ← nextU8 "iinc index"
      let const ← nextS8 "iinc const"
      pure (.iinc, .iinc index const)
  | 0xaa => parseTableswitchInsn maxPc pc
  | 0xab => parseLookupswitchInsn maxPc pc
  | 0xb9 => do
      let index ← nextU16 "invokeinterface index"
      let _ ← checkedCpEntry cp index [.interfaceMethodRef] "invokeinterface method ref"
      let _ ← nextU8 "invokeinterface count"
      let _ ← nextU8 "invokeinterface zero"
      pure (.invokeinterface, .cp index)
  | 0xba => do
      let index ← nextU16 "invokedynamic index"
      let _ ← checkedCpEntry cp index [.invokeDynamic] "indy method ref"
      let _ ← nextU16 "invokedynamic zero"
      pure (.invokedynamic, .cp index)
  | 0xbc => do
      let atype ← nextU8 "newarray type"
      match parseAtype atype with
      | some k => pure (.newarray, .arrayType k)
      | none => throw (.number "invalid newarray type " atype)
  | 0xc4 => parseWide
  | 0xc5 => do
      let index ← nextU16 "multianewarray index"
      let dimensions ← nextU8 "multianewarray dimensions"
      let _ ← checkedCpEntry cp index [.classInfo] "multianewarray class"
      pure (.multianewarray, .multianewarray index dimensions)
  | 0xc8 => do
      let offset ← nextS32 "goto_w offset"
      let target ← checkedPc maxPc pc offset
      pure (.goto, .index target)
  | 0xc9 => do
      let offset ← nextS32 "jsr_w offset"
      let target ← checkedPc maxPc pc offset
      pure (.jsr, .index target)
  | _ => throw (.number "invalid opcode " opcode)

def parseInsnImpl (cp : List CpEntry) (maxPc pc : ℕ) : CodeParser (InsnKind × InsnOperand) := do
  let opcode ← nextU8 "instruction opcode"
  match OrderedMap.get plainInsns opcode with
  | some kind => pure (kind, .none)
  | none =>
  if 0x02 ≤ opcode ∧ opcode ≤ 0x08 then pure (.iconst, .integerImm ((opcode : ℤ) - 0x03))
  else if 0x09 ≤ opcode ∧ opcode ≤ 0x0a then pure (.lconst, .integerImm ((opcode : ℤ) - 0x09))
  else if 0x0b ≤ opcode ∧ opcode ≤ 0x0d then pure (.fconst, .fImm (fconstBits (opcode - 0x0b)))
  else if 0x0e ≤ opcode ∧ opcode ≤ 0x0f then pure (.dconst, .dImm (dconstBits (opcode - 0x0e)))
  else match OrderedMap.get localInsns opcode with
  | some (kind, reason) =>
      let index ← nextU8 reason
      pure (kind, .index index)
  | none =>
  match shortLocals.find? fun p => p.1 ≤ opcode ∧ opcode < p.1 + 4 with
  | some (first, kind) => pure (kind, .index (opcode - first))
  | none =>
  match OrderedMap.get branchInsns opcode with
  | some (kind, reason) =>
      let offset ← nextS16 reason
      let target ← checkedPc maxPc pc offset
      pure (kind, .index target)
  | none =>
  match OrderedMap.get cpInsns opcode with
  | some (kind, expected, reading, checking) =>
      let index ← nextU16 reading
      let _ ← checkedCpEntry cp index expected checking
      pure (kind, .cp index)
  | none => parseSpecial cp maxPc pc opcode

def parseInsn (cp : List CpEntry) (maxPc pc : ℕ) : CodeParser BytecodeInsn := do
  let (kind, operand) ← parseInsnImpl cp maxPc pc
  pure ⟨kind, pc, operand⟩

/-- The instructions parsed so far and `pc_to_insn`, where `none` is -1. -/
structure CodeState where
  code : List BytecodeInsn
  pcToInsn : ℕ → Option ℕ

/-- The loop over the code bytes; every instruction has at least one byte. -/
def parseInsns (cp : List CpEntry) (maxPc : ℕ) :
    ℕ → List UInt8 → CodeState → Except FormatError CodeState
  | 0, _, s => .ok s
  | _ + 1, [], s => .ok s
  | fuel + 1, b :: bs, s =>
      let pc := maxPc - (b :: bs).length
      match parseInsn cp maxPc pc (b :: bs) with
      | .error e => .error e
      | .ok (insn, rest) =>
          parseInsns cp maxPc fuel rest
            ⟨s.code ++ [insn], Function.update s.pcToInsn pc (some s.code.length)⟩

def convertPcToInsn (pcToInsn : ℕ → Option ℕ) (pc : ℕ) : Except FormatError ℕ :=
  match pcToInsn pc with
  | some i => .ok i
  | none => .error (.number "invalid program counter " pc)

/-- The kinds from `insn_goto` to `insn_ifnull`. -/
def InsnKind.hasTarget (k : InsnKind) : Bool :=
  InsnKind.goto.ctorIdx ≤ k.ctorIdx && k.ctorIdx ≤ InsnKind.ifnull.ctorIdx

/-- The body of the loop of `convert_pcs_to_insn_indices`. -/
def convertInsn (pcToInsn : ℕ → Option ℕ) (insn : BytecodeInsn) :
    Except FormatError BytecodeInsn :=
  match insn.operand with
  | .tableswitch defaultTarget low high targets => do
      let defaultTarget ← convertPcToInsn pcToInsn defaultTarget
      let targets ← targets.mapM (convertPcToInsn pcToInsn)
      pure { insn with operand := .tableswitch defaultTarget low high targets }
  | .lookupswitch defaultTarget keys targets => do
      let defaultTarget ← convertPcToInsn pcToInsn defaultTarget
      let targets ← targets.mapM (convertPcToInsn pcToInsn)
      pure { insn with operand := .lookupswitch defaultTarget keys targets }
  | .index i =>
      if insn.kind.hasTarget then do
        let i ← convertPcToInsn pcToInsn i
        pure { insn with operand := .index i }
      else pure insn
  | _ => pure insn

/-- `exception_table_entry` with the constant pool index of its class. -/
structure ExceptionTableEntry extends ExceptionEntry where
  catchType : Option ℕ
  deriving DecidableEq

def parseExceptionEntry (cp : List CpEntry) (codeLength : ℕ) (pcToInsn : ℕ → Option ℕ) :
    CodeParser ExceptionTableEntry := do
  let startPc ← nextU16 "exception start pc"
  let endPc ← nextU16 "exception end pc"
  let handlerPc ← nextU16 "exception handler pc"
  let catchType ← nextU16 "exception catch type"
  if codeLength ≤ startPc ∨ codeLength < endPc ∨ codeLength ≤ handlerPc then
    throw (.text "exception table entry out of bounds")
  else if endPc ≤ startPc then throw (.text "exception table entry start >= end")
  else
    let startInsn ← Parser.ofExcept (convertPcToInsn pcToInsn startPc)
    let endInsn ← Parser.ofExcept
      (if endPc = codeLength then .ok codeLength else convertPcToInsn pcToInsn endPc)
    let handlerInsn ← Parser.ofExcept (convertPcToInsn pcToInsn handlerPc)
    if catchType = 0 then pure ⟨⟨startInsn, endInsn, handlerInsn⟩, none⟩
    else
      let _ ← checkedCpEntry cp catchType [.classInfo] "exception catch type"
      pure ⟨⟨startInsn, endInsn, handlerInsn⟩, some catchType⟩

def parseExceptionTable (cp : List CpEntry) (codeLength : ℕ) (pcToInsn : ℕ → Option ℕ) :
    ℕ → CodeParser (List ExceptionTableEntry)
  | 0 => pure []
  | n + 1 => do
      let entry ← parseExceptionEntry cp codeLength pcToInsn
      let entries ← parseExceptionTable cp codeLength pcToInsn n
      pure (entry :: entries)

/-- `classfile_parse_ctx` as far as the parser of code reads it. -/
structure ParseCtx where
  cp : List CpEntry
  currentCodeMaxPc : ℕ
  deriving DecidableEq

/-- `attribute_code`, with attributes of any type. -/
structure ParsedCode (α : Type) where
  maxStack : ℕ
  maxLocals : ℕ
  maxFormalPc : ℕ
  code : List BytecodeInsn
  exceptionTable : List ExceptionTableEntry
  attributes : List α
  deriving DecidableEq

section Attributes

variable {α : Type} (parseAttribute : ParseCtx → CodeParser (α × ParseCtx))

def parseAttributes : ℕ → ParseCtx → CodeParser (List α × ParseCtx)
  | 0, ctx => pure ([], ctx)
  | n + 1, ctx => do
      let (a, ctx) ← parseAttribute ctx
      let (as, ctx) ← parseAttributes n ctx
      pure (a :: as, ctx)

/-- `parse_code_attribute`. The attributes of the code are read by `parse_attribute`, which may
change the context; `memory` says that `pc_to_insn` can be allocated. -/
def parseCodeAttribute (memory : Bool) (ctx : ParseCtx) : CodeParser (ParsedCode α × ParseCtx) := do
  let maxStack ← nextU16 "max stack"
  let maxLocals ← nextU16 "max locals"
  let codeLength ← nextU32 "code length"
  if codeLength = 0 ∨ 65535 < codeLength then
    throw (.text "Code attribute length must be between 1 and 65535 bytes")
  else
    let codeBytes ← Parser.slice codeLength (.text "End of slice while reading code")
    if memory then
      let s ← Parser.ofExcept
        (parseInsns ctx.cp codeLength codeLength codeBytes ⟨[], fun _ => none⟩)
      let code ← Parser.ofExcept (s.code.mapM (convertInsn s.pcToInsn))
      let exceptionTableLength ← nextU16 "exception table length"
      let table ← parseExceptionTable ctx.cp codeLength s.pcToInsn exceptionTableLength
      let attributesCount ← nextU16 "code attributes count"
      let (attributes, ctx) ←
        parseAttributes parseAttribute attributesCount { ctx with currentCodeMaxPc := codeLength }
      pure (⟨maxStack, maxLocals, ctx.currentCodeMaxPc, code, table, attributes⟩, ctx)
    else throw (.text "Out of memory while parsing method code")

end Attributes

end TraceJvm
