import TraceJvm.TosMachine

/-! The contents of the cells of a thread. One machine is run in two domains: the 64-bit cells
that the handlers compute with, and the values of the Java virtual machine. References are opaque;
what the handlers read from memory, and what they decide about references, comes from outside. -/
namespace TraceJvm

/-- `stack_value`. -/
abbrev Cell := BitVec 64

/-- The member `i`. -/
def Cell.i (c : Cell) : BitVec 32 := c.setWidth 32

/-- An assignment to the member `i` leaves the upper half of the cell alone. -/
def Cell.setI (c : Cell) (v : BitVec 32) : Cell := c.extractLsb' 32 32 ++ v

/-- An `s32` converted to `s64`. -/
def signExtended (v : BitVec 32) : Cell := v.signExtend 64

/-- A value of the Java virtual machine; `unset` stands for a local that was not written. -/
inductive JavaValue where
  | unset
  | int (v : BitVec 32)
  | long (v : BitVec 64)
  | float (bits : BitVec 32)
  | double (bits : BitVec 64)
  | reference

/-- The floating point operations of the C implementation. `floatOfInt` and `doubleOfInt` round an
integer, a comparison of a NaN has no outcome, and the conversions to `s64` that C leaves undefined
give anything. -/
structure FloatUnit where
  float1 : InsnKind → BitVec 32 → BitVec 32
  float2 : InsnKind → BitVec 32 → BitVec 32 → BitVec 32
  double1 : InsnKind → BitVec 64 → BitVec 64
  double2 : InsnKind → BitVec 64 → BitVec 64 → BitVec 64
  floatCompare : BitVec 32 → BitVec 32 → Option Ordering
  doubleCompare : BitVec 64 → BitVec 64 → Option Ordering
  floatOfInt : ℤ → BitVec 32
  doubleOfInt : ℤ → BitVec 64
  f2i : BitVec 32 → BitVec 32
  f2l : BitVec 32 → BitVec 64
  f2d : BitVec 32 → BitVec 64
  d2i : BitVec 64 → BitVec 32
  d2l : BitVec 64 → BitVec 64
  d2f : BitVec 64 → BitVec 32
  floatToS64 : BitVec 32 → BitVec 64
  doubleToS64 : BitVec 64 → BitVec 64

/-- `bytecode_insn` with the constants that the handlers read. The class file has the operand of
`iconst` and of `iinc` as a signed number of at most 32 bits. -/
structure ConcreteInsn extends Instruction where
  intImm : BitVec 32 := 0
  wideImm : BitVec 64 := 0
  low : BitVec 32 := 0
  high : BitVec 32 := 0
  keys : List (BitVec 32) := []

/-- The target of a `tableswitch`. The first of the targets is the default one. -/
def ConcreteInsn.tableTarget (insn : ConcreteInsn) (index : BitVec 32) : ℕ :=
  if index.slt insn.low ∨ insn.high.slt index then insn.switchTargets.headD 0
  else insn.switchTargets.getD ((index.toInt - insn.low.toInt).toNat + 1) 0

/-- The target of a `lookupswitch`. -/
def ConcreteInsn.lookupTarget (insn : ConcreteInsn) (key : BitVec 32) : ℕ :=
  match insn.keys.findIdx? (· = key) with
  | some i => insn.switchTargets.getD (i + 1) 0
  | none => insn.switchTargets.headD 0

/-- What a handler gets from outside the cells: the contents of the memory it reads, the length of
its array, and the answer to its question about references. -/
structure External where
  raw : BitVec 64
  length : BitVec 32
  answer : Bool

inductive Outcome (V : Type) where
  | push (v : V)
  | next
  | jump (taken : Bool)
  | select (target : ℕ)
  | throw

/-- `MAKE_INT_BRANCH_AGAINST_0`. -/
def testZero (k : InsnKind) (v : BitVec 32) : Option Bool :=
  match k with
  | .ifeq => some (v = 0)
  | .ifne => some (v ≠ 0)
  | .iflt => some (v.slt 0)
  | .ifge => some (!v.slt 0)
  | .ifgt => some (BitVec.slt 0 v)
  | .ifle => some (!BitVec.slt 0 v)
  | _ => none

/-- `MAKE_INT_BRANCH`. -/
def testPair (k : InsnKind) (a b : BitVec 32) : Option Bool :=
  match k with
  | .ifIcmpeq => some (a = b)
  | .ifIcmpne => some (a ≠ b)
  | .ifIcmplt => some (a.slt b)
  | .ifIcmpge => some (!a.slt b)
  | .ifIcmpgt => some (b.slt a)
  | .ifIcmple => some (!b.slt a)
  | _ => none

def accessKind : InsnKind → Option TypeKind
  | .getstaticB | .getfieldB | .baload => some .byte
  | .getstaticC | .getfieldC | .caload => some .char
  | .getstaticS | .getfieldS | .saload => some .short
  | .getstaticI | .getfieldI | .iaload => some .int
  | .getstaticJ | .getfieldJ | .laload => some .long
  | .getstaticF | .getfieldF | .faload => some .float
  | .getstaticD | .getfieldD | .daload => some .double
  | .getstaticZ | .getfieldZ => some .boolean
  | .getstaticL | .getfieldL | .aaload => some .reference
  | _ => none

/-- A typed read of memory, converted to `s64` for the types that go to the integer register. -/
def loadCell (k : TypeKind) (raw : BitVec 64) : Cell :=
  match k with
  | .boolean | .byte => (raw.setWidth 8).signExtend 64
  | .char => (raw.setWidth 16).setWidth 64
  | .short => (raw.setWidth 16).signExtend 64
  | .int => (raw.setWidth 32).signExtend 64
  | .float => (raw.setWidth 32).setWidth 64
  | _ => raw

def loadJava (k : TypeKind) (raw : BitVec 64) : JavaValue :=
  match k with
  | .boolean | .byte => .int ((raw.setWidth 8).signExtend 32)
  | .char => .int ((raw.setWidth 16).setWidth 32)
  | .short => .int ((raw.setWidth 16).signExtend 32)
  | .int => .int (raw.setWidth 32)
  | .long => .long raw
  | .float => .float (raw.setWidth 32)
  | .double => .double raw
  | .reference => .reference
  | .void => .unset

def outOfBounds (index length : BitVec 32) : Bool := index.slt 0 || !index.slt length

/-- The outcome of `fcmpg` and the like, `nan` for operands that do not compare. -/
def compareResult (o : Option Ordering) (nan : BitVec 32) : BitVec 32 :=
  match o with
  | some .gt => 1
  | some .lt => -1
  | some .eq => 0
  | none => nan

def cellNullary (insn : ConcreteInsn) (x : External) : Option (Outcome Cell) :=
  match accessKind insn.kind with
  | some k => some (.push (loadCell k x.raw))
  | none =>
    match insn.kind with
    | .nop => some .next
    | .goto => some (.jump true)
    | .iconst => some (.push (signExtended insn.intImm))
    | .lconst | .dconst => some (.push insn.wideImm)
    | .fconst => some (.push ((insn.wideImm.setWidth 32).setWidth 64))
    | .aconstNull => some (.push 0)
    | .ldc | .newResolved => some (.push x.raw)
    | _ => none

/-- The handlers that take one value. The variants of the mathematical functions for a `float` are
left out, no method of `java.lang.Math` leads to them. -/
def cellUnary (F : FloatUnit) (insn : ConcreteInsn) (x : External) (a : Cell) :
    Option (Outcome Cell) :=
  match testZero insn.kind a.i, accessKind insn.kind with
  | some b, _ => some (.jump b)
  | _, some k => some (.push (loadCell k x.raw))
  | none, none =>
    match insn.kind with
    | .ineg => some (.push (signExtended (-a.i)))
    | .lneg => some (.push (-a))
    | .i2l => some (.push a)
    | .i2s => some (.push ((a.setWidth 16).signExtend 64))
    | .i2b => some (.push ((a.setWidth 8).signExtend 64))
    | .i2c => some (.push ((a.setWidth 16).setWidth 64))
    | .i2f | .l2f => some (.push ((F.floatOfInt a.toInt).setWidth 64))
    | .i2d | .l2d => some (.push (F.doubleOfInt a.toInt))
    | .l2i => some (.push (signExtended a.i))
    | .fneg => some (.push ((F.float1 .fneg a.i).setWidth 64))
    | .f2i => some (.push (signExtended (F.f2i a.i)))
    | .f2l => some (.push (F.f2l a.i))
    | .f2d => some (.push (F.f2d a.i))
    | .dneg | .sin | .cos | .tan | .sqrt => some (.push (F.double1 insn.kind a))
    | .d2i => some (.push (signExtended (F.d2i a)))
    | .d2l => some (.push (F.d2l a))
    | .d2f => some (.push ((F.d2f a).setWidth 64))
    | .arraylength => some (.push (signExtended x.length))
    | .instanceofResolved => some (.push (signExtended (if x.answer then 1 else 0)))
    | .checkcastResolved => some (.push a)
    | .newarray | .anewarrayResolved => some (if a.i.msb then .throw else .push x.raw)
    | .tableswitch => some (.select (insn.tableTarget a.i))
    | .lookupswitch => some (.select (insn.lookupTarget a.i))
    | .ifnull | .ifnonnull => some (.jump x.answer)
    | .monitorenter | .monitorexit | .putstaticB | .putstaticC | .putstaticS | .putstaticI
    | .putstaticJ | .putstaticF | .putstaticD | .putstaticZ | .putstaticL => some .next
    | _ => none

/-- `INTEGER_BIN_OP` for `int`. The expression of `ishr` has the type `u32`. -/
def intBinary (k : InsnKind) (a b : Cell) : Option Cell :=
  match k with
  | .iadd => some (signExtended (a.i + b.i))
  | .isub => some (signExtended (a.i - b.i))
  | .imul => some (signExtended (a.i * b.i))
  | .iand => some (signExtended (a.i &&& b.i))
  | .ior => some (signExtended (a.i ||| b.i))
  | .ixor => some (signExtended (a.i ^^^ b.i))
  | .ishl => some (signExtended (a.i <<< (b &&& 0x1f#64).toNat))
  | .ishr => some ((a.i.sshiftRight (b &&& 0x1f#64).toNat).setWidth 64)
  | .iushr => some (signExtended (a.i >>> (b &&& 0x1f#64).toNat))
  | _ => none

/-- `INTEGER_BIN_OP` for `long`. -/
def longBinary (k : InsnKind) (a b : BitVec 64) : Option (BitVec 64) :=
  match k with
  | .ladd => some (a + b)
  | .lsub => some (a - b)
  | .lmul => some (a * b)
  | .land => some (a &&& b)
  | .lor => some (a ||| b)
  | .lxor => some (a ^^^ b)
  | _ => none

/-- The shifts of a `long`, by the masked distance. -/
def longShift (k : InsnKind) (a : BitVec 64) (distance : ℕ) : Option (BitVec 64) :=
  match k with
  | .lshl => some (a <<< distance)
  | .lshr => some (a.sshiftRight distance)
  | .lushr => some (a >>> distance)
  | _ => none

/-- The handlers that take two values, the second one from the top of the stack, in a build whose
C `long` has 64 bits. -/
def cellBinary (F : FloatUnit) (insn : ConcreteInsn) (x : External) (b a : Cell) :
    Option (Outcome Cell) :=
  match intBinary insn.kind a b, longBinary insn.kind a b,
    longShift insn.kind a (b &&& 0x3f#64).toNat with
  | some c, _, _ | none, some c, _ | none, none, some c => some (.push c)
  | none, none, none =>
    match testPair insn.kind a.i b.i, accessKind insn.kind with
    | some taken, _ => some (.jump taken)
    | none, some k =>
        some (if outOfBounds b.i x.length then .throw else .push (loadCell k x.raw))
    | none, none =>
      match insn.kind with
      | .idiv => some (if b.i = 0 then .throw else .push (signExtended (a.i.sdiv b.i)))
      | .irem => some (if b.i = 0 then .throw else .push (signExtended (a.i.srem b.i)))
      | .ldiv => some (if b = 0 then .throw else .push (a.sdiv b))
      | .lrem => some (if b = 0 then .throw else .push (a.srem b))
      | .lcmp => some (.push (signExtended (compareResult (some (compare a.toInt b.toInt)) 0)))
      | .fcmpg => some (.push (signExtended (compareResult (F.floatCompare a.i b.i) 1)))
      | .fcmpl => some (.push (signExtended (compareResult (F.floatCompare a.i b.i) (-1))))
      | .dcmpg => some (.push (signExtended (compareResult (F.doubleCompare a b) 1)))
      | .dcmpl => some (.push (signExtended (compareResult (F.doubleCompare a b) (-1))))
      | .fadd | .fsub | .fmul | .fdiv | .frem =>
          some (.push ((F.float2 insn.kind a.i b.i).setWidth 64))
      | .dadd | .dsub | .dmul | .ddiv | .drem | .pow => some (.push (F.double2 insn.kind a b))
      | .ifAcmpeq | .ifAcmpne => some (.jump x.answer)
      | .hotStringLatin1Equals => some (.push (signExtended (if x.answer then 1 else 0)))
      | .putfieldB | .putfieldC | .putfieldS | .putfieldI | .putfieldJ | .putfieldF | .putfieldD
      | .putfieldZ | .putfieldL => some .next
      | _ => none

def arrayStoreKind : InsnKind → Option TypeKind
  | .iastore | .bastore | .sastore | .castore => some .int
  | .lastore => some .long
  | .fastore => some .float
  | .dastore => some .double
  | .aastore => some .reference
  | _ => none

/-- What a handler computes from the cells it takes, the top one first. The array stores take three
cells, `multianewarray` takes its lengths, and the loop of the hash intrinsic gets its result from
the array. -/
def cellCompute (F : FloatUnit) (insn : ConcreteInsn) (x : External) (args : List Cell) :
    Option (Outcome Cell) :=
  if insn.kind = .multianewarray then
    some (if (args.map Cell.i).any (·.msb) then .throw else .push x.raw)
  else
    match args with
    | [] => cellNullary insn x
    | [a] => cellUnary F insn x a
    | [b, a] => cellBinary F insn x b a
    | [_, index, _] =>
      if (arrayStoreKind insn.kind).isSome then
        some (if outOfBounds index.i x.length then .throw else .next)
      else none
    | [_, _, _, _] =>
      if insn.kind = .hotArraysSupportUnsignedHashCode then
        some (.push (signExtended (x.raw.setWidth 32)))
      else none
    | _ => none

def javaNullary (insn : ConcreteInsn) (x : External) : Option (Outcome JavaValue) :=
  match accessKind insn.kind with
  | some k => some (.push (loadJava k x.raw))
  | none =>
    match insn.kind with
    | .nop => some .next
    | .goto => some (.jump true)
    | .iconst => some (.push (.int insn.intImm))
    | .lconst => some (.push (.long insn.wideImm))
    | .dconst => some (.push (.double insn.wideImm))
    | .fconst => some (.push (.float (insn.wideImm.setWidth 32)))
    | .aconstNull | .ldc | .newResolved => some (.push .reference)
    | _ => none

/-- The instructions that take an `int`. -/
def javaOfInt (F : FloatUnit) (insn : ConcreteInsn) (v : BitVec 32) : Option (Outcome JavaValue) :=
  match testZero insn.kind v with
  | some b => some (.jump b)
  | none =>
    match insn.kind with
    | .ineg => some (.push (.int (-v)))
    | .i2l => some (.push (.long (v.signExtend 64)))
    | .i2s => some (.push (.int ((v.setWidth 16).signExtend 32)))
    | .i2b => some (.push (.int ((v.setWidth 8).signExtend 32)))
    | .i2c => some (.push (.int ((v.setWidth 16).setWidth 32)))
    | .i2f => some (.push (.float (F.floatOfInt v.toInt)))
    | .i2d => some (.push (.double (F.doubleOfInt v.toInt)))
    | .newarray | .anewarrayResolved => some (if v.msb then .throw else .push .reference)
    | .tableswitch => some (.select (insn.tableTarget v))
    | .lookupswitch => some (.select (insn.lookupTarget v))
    | .putstaticB | .putstaticC | .putstaticS | .putstaticI | .putstaticZ => some .next
    | _ => none

def javaUnary (F : FloatUnit) (insn : ConcreteInsn) (x : External) :
    JavaValue → Option (Outcome JavaValue)
  | .unset => none
  | .int v => javaOfInt F insn v
  | .long v =>
    match insn.kind with
    | .lneg => some (.push (.long (-v)))
    | .l2i => some (.push (.int (v.setWidth 32)))
    | .l2f => some (.push (.float (F.floatOfInt v.toInt)))
    | .l2d => some (.push (.double (F.doubleOfInt v.toInt)))
    | .putstaticJ => some .next
    | _ => none
  | .float v =>
    match insn.kind with
    | .fneg => some (.push (.float (F.float1 .fneg v)))
    | .f2i => some (.push (.int (F.f2i v)))
    | .f2l => some (.push (.long (F.f2l v)))
    | .f2d => some (.push (.double (F.f2d v)))
    | .putstaticF => some .next
    | _ => none
  | .double v =>
    match insn.kind with
    | .dneg | .sin | .cos | .tan | .sqrt => some (.push (.double (F.double1 insn.kind v)))
    | .d2i => some (.push (.int (F.d2i v)))
    | .d2l => some (.push (.long (F.d2l v)))
    | .d2f => some (.push (.float (F.d2f v)))
    | .putstaticD => some .next
    | _ => none
  | .reference =>
    match accessKind insn.kind with
    | some k => some (.push (loadJava k x.raw))
    | none =>
      match insn.kind with
      | .arraylength => some (.push (.int x.length))
      | .instanceofResolved => some (.push (.int (if x.answer then 1 else 0)))
      | .checkcastResolved => some (.push .reference)
      | .ifnull | .ifnonnull => some (.jump x.answer)
      | .monitorenter | .monitorexit | .putstaticL => some .next
      | _ => none

/-- The operations on two `int`s. Only the low five bits of a shift distance count. -/
def javaIntBinary (k : InsnKind) (a b : BitVec 32) : Option (BitVec 32) :=
  match k with
  | .iadd => some (a + b)
  | .isub => some (a - b)
  | .imul => some (a * b)
  | .iand => some (a &&& b)
  | .ior => some (a ||| b)
  | .ixor => some (a ^^^ b)
  | .ishl => some (a <<< (b &&& 0x1f#32).toNat)
  | .ishr => some (a.sshiftRight (b &&& 0x1f#32).toNat)
  | .iushr => some (a >>> (b &&& 0x1f#32).toNat)
  | _ => none

/-- The instructions that take two `int`s. -/
def javaOfInts (insn : ConcreteInsn) (b a : BitVec 32) : Option (Outcome JavaValue) :=
  match javaIntBinary insn.kind a b, testPair insn.kind a b with
  | some v, _ => some (.push (.int v))
  | none, some taken => some (.jump taken)
  | none, none =>
    match insn.kind with
    | .idiv => some (if b = 0 then .throw else .push (.int (a.sdiv b)))
    | .irem => some (if b = 0 then .throw else .push (.int (a.srem b)))
    | _ => none

/-- The instructions that take two `long`s. -/
def javaOfLongs (insn : ConcreteInsn) (b a : BitVec 64) : Option (Outcome JavaValue) :=
  match longBinary insn.kind a b with
  | some v => some (.push (.long v))
  | none =>
    match insn.kind with
    | .ldiv => some (if b = 0 then .throw else .push (.long (a.sdiv b)))
    | .lrem => some (if b = 0 then .throw else .push (.long (a.srem b)))
    | .lcmp => some (.push (.int (compareResult (some (compare a.toInt b.toInt)) 0)))
    | _ => none

/-- The instructions that take two values, the second one from the top of the stack. -/
def javaBinary (F : FloatUnit) (insn : ConcreteInsn) (x : External) :
    JavaValue → JavaValue → Option (Outcome JavaValue)
  | .int b, .int a => javaOfInts insn b a
  | .int b, .long a =>
    (longShift insn.kind a (b &&& 0x3f#32).toNat).map fun v => .push (.long v)
  | .long b, .long a => javaOfLongs insn b a
  | .float b, .float a =>
    match insn.kind with
    | .fcmpg => some (.push (.int (compareResult (F.floatCompare a b) 1)))
    | .fcmpl => some (.push (.int (compareResult (F.floatCompare a b) (-1))))
    | .fadd | .fsub | .fmul | .fdiv | .frem => some (.push (.float (F.float2 insn.kind a b)))
    | _ => none
  | .double b, .double a =>
    match insn.kind with
    | .dcmpg => some (.push (.int (compareResult (F.doubleCompare a b) 1)))
    | .dcmpl => some (.push (.int (compareResult (F.doubleCompare a b) (-1))))
    | .dadd | .dsub | .dmul | .ddiv | .drem | .pow =>
        some (.push (.double (F.double2 insn.kind a b)))
    | _ => none
  | .int index, .reference =>
    match accessKind insn.kind, insn.kind with
    | some k, _ => some (if outOfBounds index x.length then .throw else .push (loadJava k x.raw))
    | none, .putfieldB | none, .putfieldC | none, .putfieldS | none, .putfieldI
    | none, .putfieldZ => some .next
    | none, _ => none
  | .long _, .reference => if insn.kind = .putfieldJ then some .next else none
  | .float _, .reference => if insn.kind = .putfieldF then some .next else none
  | .double _, .reference => if insn.kind = .putfieldD then some .next else none
  | .reference, .reference =>
    match insn.kind with
    | .ifAcmpeq | .ifAcmpne => some (.jump x.answer)
    | .hotStringLatin1Equals => some (.push (.int (if x.answer then 1 else 0)))
    | .putfieldL => some .next
    | _ => none
  | _, _ => none

def JavaValue.ints : List JavaValue → Option (List (BitVec 32))
  | [] => some []
  | .int v :: vs => (JavaValue.ints vs).map (v :: ·)
  | _ => none

def JavaValue.kind : JavaValue → TypeKind
  | .unset => .void
  | .int _ => .int
  | .long _ => .long
  | .float _ => .float
  | .double _ => .double
  | .reference => .reference

def javaCompute (F : FloatUnit) (insn : ConcreteInsn) (x : External) (args : List JavaValue) :
    Option (Outcome JavaValue) :=
  if insn.kind = .multianewarray then
    (JavaValue.ints args).map fun vs => if vs.any (·.msb) then .throw else .push .reference
  else
    match args with
    | [] => javaNullary insn x
    | [a] => javaUnary F insn x a
    | [b, a] => javaBinary F insn x b a
    | [v, .int index, .reference] =>
      if arrayStoreKind insn.kind = some v.kind then
        some (if outOfBounds index x.length then .throw else .next)
      else none
    | [.int _, .int _, .reference, .int _] =>
      if insn.kind = .hotArraysSupportUnsignedHashCode then
        some (.push (.int (x.raw.setWidth 32)))
      else none
    | _ => none

/-- What the machine does with values. `load` reads a cell as the given kind, from a local or for
the caller of a return. `spill` stores the register of a variant to memory that held something else,
`reload` is the way back, `passInt` is the conversion in `NEXT_INT`, `external` is a cell that native
code has filled and `aot` the result of a compiled body. -/
structure ValueDomain (V : Type) where
  compute : ConcreteInsn → External → List V → Option (Outcome V)
  load : TypeKind → V → Option V
  store : TypeKind → V → V → Option V
  increment : BitVec 32 → V → Option V
  spill : TosKind → Cell → V → Option V
  reload : TosKind → V → Option V
  passInt : TosKind → V → V
  external : TypeKind → Cell → V
  aot : BitVec 32 → V

def returnKind : InsnKind → Option TypeKind
  | .ireturn => some .int
  | .lreturn => some .long
  | .freturn => some .float
  | .dreturn => some .double
  | .areturn => some .reference
  | _ => none

/-- The handlers on cells. A local of kind `int` or `float` is accessed through the lower half of
its cell; so is `stack_value result = {}` by a compiled body. -/
def cellDomain (F : FloatUnit) : ValueDomain Cell where
  compute := cellCompute F
  load k c :=
    match k with
    | .int => some (signExtended c.i)
    | .float => some (c.i.setWidth 64)
    | _ => some c
  store k old c :=
    match k with
    | .int | .float => some (old.setI c.i)
    | _ => some c
  increment n c := some (c.setI (c.i + n))
  spill t old c := some (if t = .float then old.setI c.i else c)
  reload _ c := some c
  passInt t c :=
    match t with
    | .float => F.floatToS64 c.i
    | .double => F.doubleToS64 c
    | _ => c
  external _ c := c
  aot v := Cell.setI 0 v

/-- What native code has left in a cell; it uses the member `i` for all kinds of `int`. -/
def JavaValue.ofCell (k : TypeKind) (c : Cell) : JavaValue :=
  match k with
  | .boolean | .char | .byte | .short | .int => .int c.i
  | .long => .long c
  | .float => .float c.i
  | .double => .double c
  | .reference => .reference
  | .void => .unset

/-- The instructions of the Java virtual machine on its values. A variant has the values of its own
kind in the register. -/
def javaDomain (F : FloatUnit) : ValueDomain JavaValue where
  compute := javaCompute F
  load k v := if v.kind = k then some v else none
  store k _ v := if v.kind = k then some v else none
  increment n v :=
    match v with
    | .int v => some (.int (v + n))
    | _ => none
  spill t _ v := if t = .void ∨ v.kind.tos = t then some v else none
  reload t v := if v.kind.tos = t then some v else none
  passInt _ v := v
  external := JavaValue.ofCell
  aot v := .int v

/-- An activation, with the operand stack listed top first. Its first value is in the register
unless the variant `tos` is `void`. An `entry` frame was called by native code. -/
structure CellFrame (V : Type) where
  method : ℕ
  pc : ℕ
  tos : TosKind
  stack : List V
  locals : List V
  entry : Bool

structure MethodBody where
  code : List ConcreteInsn
  maxLocals : ℕ
  table : List ExceptionEntry

/-- A thread: its activations, the innermost one first, and whether an exception is pending. The
methods are shared by all activations, their instructions rewrite themselves. -/
structure CellThread (V : Type) where
  methods : ℕ → MethodBody
  frames : List (CellFrame V)
  throwing : Bool

variable {V : Type}

/-- A handler ends, with `st` below its result. -/
def CellFrame.finish (f : CellFrame V) (insn : ConcreteInsn) (tos : TosKind) (st : List V) :
    Outcome V → CellFrame V × Bool
  | .push v => ({ f with pc := f.pc + 1, tos := tos, stack := v :: st }, false)
  | .next => ({ f with pc := f.pc + 1, tos := tos, stack := st }, false)
  | .jump taken =>
    ({ f with
        pc := if taken then (f.pc + insn.delta / sizeofInsn).toNat else f.pc + 1
        tos := tos, stack := st }, false)
  | .select target => ({ f with pc := target, tos := tos, stack := st }, false)
  | .throw => (f, true)

/-- A handler that takes `n` values from the stack. -/
def CellFrame.compute (D : ValueDomain V) (f : CellFrame V) (insn : ConcreteInsn) (x : External)
    (n : ℕ) (tos : TosKind) : Option (CellFrame V × Bool) :=
  if n ≤ f.stack.length then
    (D.compute insn x (f.stack.take n)).map (f.finish insn tos (f.stack.drop n))
  else none

/-- `dup` and `dup2` store the register under its copy; `dup2` goes on with `NEXT_INT`. -/
def CellFrame.duplicate (D : ValueDomain V) (f : CellFrame V) (x : External) (two : Bool) :
    Option (CellFrame V) :=
  match two, f.stack with
  | false, a :: st =>
    (D.spill f.tos x.raw a).map fun c => { f with pc := f.pc + 1, stack := a :: c :: st }
  | true, a :: b :: st =>
    (D.spill f.tos x.raw a).map fun c =>
      { f with pc := f.pc + 1, tos := .int, stack := D.passInt f.tos a :: b :: c :: b :: st }
  | _, _ => none

/-- One handler that stays in its activation, and whether it raises an exception. After a handler
that lets the next instruction choose, the variant is `void` until the register is reloaded. -/
def CellFrame.exec (D : ValueDomain V) (maxLocals : ℕ) (f : CellFrame V) (insn : ConcreteInsn)
    (x : External) : Option (CellFrame V × Bool) :=
  match handlerBody f.tos insn.toInstruction with
  | some .keep => f.compute D insn x 0 f.tos
  | some (.push k) => f.compute D insn x 0 k.tos
  | some (.compute n k) => f.compute D insn x n k.tos
  | some (.consume n) => f.compute D insn x n .void
  | some .load =>
    (loadKind insn.kind).bind fun k =>
      (f.locals[insn.localCell maxLocals]?).bind fun c =>
        (D.load k c).map fun v =>
          ({ f with pc := f.pc + 1, tos := k.tos, stack := v :: f.stack }, false)
  | some .store =>
    match storeKind insn.kind, f.stack with
    | some k, v :: st =>
      (f.locals[insn.localCell maxLocals]?).bind fun old =>
        (D.store k old v).map fun c =>
          ({ f with
              pc := f.pc + 1, tos := .void, stack := st
              locals := f.locals.set (insn.localCell maxLocals) c }, false)
    | _, _ => none
  | some .increment =>
    (f.locals[insn.index]?).bind fun c =>
      (D.increment insn.intImm c).map fun c' =>
        ({ f with pc := f.pc + 1, locals := f.locals.set insn.index c' }, false)
  | some .dup => (f.duplicate D x false).map fun g => (g, false)
  | some .dup2 => (f.duplicate D x true).map fun g => (g, false)
  | some .shuffle =>
    (shuffleSlots insn.kind f.stack).map fun st =>
      ({ f with pc := f.pc + 1, tos := .void, stack := st }, false)
  | _ => none

/-- The innermost activation and its instruction, unless an exception is pending. -/
def CellThread.current (s : CellThread V) :
    Option (CellFrame V × List (CellFrame V) × ConcreteInsn) :=
  match s.throwing, s.frames with
  | false, f :: fs => ((s.methods f.method).code[f.pc]?).map fun insn => (f, fs, insn)
  | _, _ => none

/-- The number of arguments and the kind of the result of a call whose handler has control, with
all values in the frame. -/
def CellFrame.callee (f : CellFrame V) (insn : ConcreteInsn) : Option (ℕ × TypeKind) :=
  match f.tos, handlerBody f.tos insn.toInstruction with
  | .void, some (.call n k) => if n ≤ f.stack.length then some (n, k) else none
  | _, _ => none

def CellFrame.resumed (f : CellFrame V) (result : Option V) : CellFrame V :=
  { f with pc := f.pc + 1, tos := .void, stack := result.toList ++ f.stack }

/-- The handlers with `AttemptInstanceHotAot`, and `hot_aot`. -/
def attemptsHotAot : InsnKind → Bool
  | .hotAot | .invokespecialResolved | .invokevtableMonomorphic | .invokeitableMonomorphic
  | .invokevtablePolymorphic | .invokeitablePolymorphic => true
  | _ => false

/-- What happens to a thread: a handler completes; a call pushes a frame, is answered by native
code with a cell, or by a compiled body; native code calls a method with cells of the given kinds;
the innermost activation returns, or the instruction at its `pc` raises an exception, which is
caught or leaves the frame (`swallowed` by the native caller perhaps); the register is stored to
the frame, or reloaded; an instruction is rewritten. The cells of the locals that are not arguments
hold anything. -/
inductive ThreadEvent where
  | exec (x : External)
  | call (callee : ℕ) (rest : List Cell)
  | native (cell : Cell)
  | aot (v : BitVec 32)
  | enter (callee : ℕ) (args : List (TypeKind × Cell)) (rest : List Cell)
  | ret
  | raise
  | caught (e : ExceptionEntry) (exception : Cell)
  | unwind (swallowed : Bool)
  | spill (old : Cell)
  | reload (t : TosKind)
  | rewrite (method i : ℕ) (k : InsnKind)

def CellThread.newFrame (D : ValueDomain V) (s : CellThread V) (callee : ℕ) (args : List V)
    (rest : List Cell) (entry : Bool) : Option (CellFrame V) :=
  if args.length + rest.length = (s.methods callee).maxLocals then
    some ⟨callee, 0, .void, [], args ++ rest.map (D.external .void), entry⟩
  else none

def CellFrame.returned (D : ValueDomain V) (f : CellFrame V) (insn : ConcreteInsn) :
    Option (Option V) :=
  if insn.kind = .returnVoid then some none
  else
    match returnKind insn.kind, f.stack with
    | some k, v :: _ => (D.load k v).map some
    | _, _ => none

/-- The innermost activation returns. One that native code has entered gives its result to that. -/
def CellThread.leave (s : CellThread V) (f : CellFrame V) (fs : List (CellFrame V))
    (result : Option V) : Option (CellThread V) :=
  match f.entry, fs with
  | true, fs => some { s with frames := fs }
  | false, g :: gs => some { s with frames := g.resumed result :: gs }
  | false, [] => none

def CellThread.updateTop (s : CellThread V) (move : CellFrame V → V → Option (TosKind × V)) :
    Option (CellThread V) :=
  match s.frames with
  | f :: fs =>
    match f.stack with
    | v :: st =>
      (move f v).map fun (t, c) => { s with frames := { f with tos := t, stack := c :: st } :: fs }
    | [] => none
  | [] => none

def threadStep (D : ValueDomain V) (s : CellThread V) : ThreadEvent → Option (CellThread V)
  | .exec x =>
    s.current.bind fun (f, fs, insn) =>
      if hasHandler f.tos insn.kind ∧ (isForwarded insn.kind → f.tos = .void) then
        (f.exec D (s.methods f.method).maxLocals insn x).map fun r =>
          { s with frames := r.1 :: fs, throwing := r.2 }
      else none
  | .call callee rest =>
    s.current.bind fun (f, fs, insn) =>
      if insn.kind ≠ .invokesigpoly then
        (f.callee insn).bind fun (n, _) =>
          let args := (f.stack.take n).reverse
          let args := if insn.kind = .invokecallsite then D.external .reference 0 :: args else args
          (s.newFrame D callee args rest false).map fun g =>
            { s with frames := g :: { f with stack := f.stack.drop n } :: fs }
      else none
  | .native cell =>
    s.current.bind fun (f, fs, insn) =>
      (f.callee insn).map fun (n, k) =>
        let r := if k = .void then none else some (D.external k cell)
        { s with frames := { f with stack := f.stack.drop n }.resumed r :: fs }
  | .aot v =>
    s.current.bind fun (f, fs, insn) =>
      (f.callee insn).bind fun (n, k) =>
        if attemptsHotAot insn.kind ∧ k = .int then
          some { s with
            frames := { f with stack := f.stack.drop n }.resumed (some (D.aot v)) :: fs }
        else none
  | .enter callee args rest =>
    if s.throwing then none
    else
      (s.newFrame D callee (args.map fun a => D.external a.1 a.2) rest true).map fun g =>
        { s with frames := g :: s.frames }
  | .ret => s.current.bind fun (f, fs, insn) => (f.returned D insn).bind (s.leave f fs)
  | .raise => s.current.map fun _ => { s with throwing := true }
  | .caught e exception =>
    match s.throwing, s.frames with
    | true, f :: fs =>
      if e ∈ (s.methods f.method).table ∧ e.covers f.pc then
        some { s with
          throwing := false
          frames := { f with
            pc := e.handlerInsn, tos := .void, stack := [D.external .reference exception] } :: fs }
      else none
    | _, _ => none
  | .unwind swallowed =>
    match s.throwing, s.frames with
    | true, f :: fs => some { s with frames := fs, throwing := !(f.entry && swallowed) }
    | _, _ => none
  | .spill old =>
    s.updateTop fun f v => (D.spill f.tos old v).map fun c => (.void, c)
  | .reload t => s.updateTop fun f v => if f.tos = .void then (D.reload t v).map (t, ·) else none
  | .rewrite method i k =>
    ((s.methods method).code[i]?).bind fun insn =>
      if k ∈ rewrites insn.toInstruction then
        some { s with
          methods := Function.update s.methods method
            { s.methods method with
              code := (s.methods method).code.modify i fun insn => { insn with kind := k } } }
      else none

def CellThread.start (methods : ℕ → MethodBody) : CellThread V := ⟨methods, [], false⟩

end TraceJvm
