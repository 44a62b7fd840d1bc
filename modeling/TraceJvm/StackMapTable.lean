import TraceJvm.Classfile

/-! The reader of `StackMapTable` attributes, `stack_map_frame_iterator`. Locals are listed slot by
slot: a `long` or `double` is followed by an implicit `top`. -/
namespace TraceJvm

/-- `stack_map_frame_validation_type_kind`. -/
inductive ValidationKind where
  | top | integer | float | double | long | null | uninitThis | object | uninit
  deriving DecidableEq

def ValidationKind.ofTag : ℕ → Option ValidationKind
  | 0 => some .top
  | 1 => some .integer
  | 2 => some .float
  | 3 => some .double
  | 4 => some .long
  | 5 => some .null
  | 6 => some .uninitThis
  | 7 => some .object
  | 8 => some .uninit
  | _ => none

def ValidationKind.isWide : ValidationKind → Bool
  | .double | .long => true
  | _ => false

def ValidationKind.hasPayload : ValidationKind → Bool
  | .object | .uninit => true
  | _ => false

/-- `type_to_validation_type`. -/
def TypeKind.validationKind : TypeKind → ValidationKind
  | .reference => .object
  | .int => .integer
  | .long => .long
  | .float => .float
  | .double => .double
  | _ => .top

/-- `validation_type_kind_to_representation`. -/
def ValidationKind.representation : ValidationKind → TypeKind
  | .integer => .int
  | .float => .float
  | .long => .long
  | .double => .double
  | .object | .null | .uninitThis | .uninit => .reference
  | .top => .void

/-- `stack_map_frame_validation_type`; `implicit` is the mark that `name` carries for the `top`
behind a `long` or `double`. -/
structure ValidationType where
  kind : ValidationKind
  implicit : Bool := false
  deriving DecidableEq

def implicitTop : ValidationType := ⟨.top, true⟩

def ValidationType.isImplicitTop (v : ValidationType) : Bool := v.kind = .top && v.implicit

def ValidationKind.slots (k : ValidationKind) : List ValidationType :=
  if k.isWide then [⟨k, false⟩, implicitTop] else [⟨k, false⟩]

/-- `stack_map_frame_iterator` with its `impl`; `table` is what is left to read. -/
structure FrameIterator where
  pc : ℕ
  stack : List ValidationKind
  locals : List ValidationType
  table : List UInt8
  hasNext : Bool
  isFirst : Bool

def readU8 : List UInt8 → Except String (ℕ × List UInt8)
  | [] => .error "Unexpected end of stackmaptable"
  | b :: rest => .ok (b.toNat, rest)

def readU16 : List UInt8 → Except String (ℕ × List UInt8)
  | a :: b :: rest => .ok (a.toNat * 256 + b.toNat, rest)
  | _ => .error "Unexpected end of stackmaptable"

/-- `read_verification_type`. The payload is read and dropped. -/
def readVerificationType (t : List UInt8) : Except String (ValidationKind × List UInt8) := do
  let (tag, t) ← readU8 t
  match ValidationKind.ofTag tag with
  | none => .error "Invalid verification type"
  | some k =>
    if k.hasPayload then
      let (_, t) ← readU16 t
      return (k, t)
    else return (k, t)

/-- The locals that an `append_frame` or a `full_frame` lists. -/
def readLocals (maxLocals : ℕ) (msg : String) :
    ℕ → List ValidationType → List UInt8 → Except String (List ValidationType × List UInt8)
  | 0, locals, t => .ok (locals, t)
  | n + 1, locals, t => do
    let (k, t) ← readVerificationType t
    let locals := locals ++ k.slots
    if locals.length > maxLocals then .error msg
    else readLocals maxLocals msg n locals t

/-- The stack that a `full_frame` lists, bottom first. -/
def readStack (maxStack : ℕ) :
    ℕ → List ValidationKind → List UInt8 → Except String (List ValidationKind × List UInt8)
  | 0, stack, t => .ok (stack, t)
  | n + 1, stack, t => do
    let (k, t) ← readVerificationType t
    let stack := stack ++ [k]
    if stack.length > maxStack then .error "full_frame stack overflow"
    else readStack maxStack n stack t

/-- The loop of `chop_frame`. -/
def chopLocals : ℕ → List ValidationType → Except String (List ValidationType)
  | 0, locals => .ok locals
  | n + 1, locals =>
    match locals.getLast? with
    | none => .error "chop_frame underflow"
    | some v =>
      if v.isImplicitTop then
        if locals.length < 2 then .error "chop_frame underflow"
        else chopLocals n locals.dropLast.dropLast
      else chopLocals n locals.dropLast

/-- The end of `stack_map_frame_iterator_next`, with `increment_pc`. -/
def FrameIterator.finish (maxStack maxLocals : ℕ) (it : FrameIterator) (stack : List ValidationKind)
    (locals : List ValidationType) (table : List UInt8) (offsetDelta : ℕ) :
    Except String FrameIterator :=
  if stack.length > maxStack ∨ locals.length > maxLocals then .error "Stack map frame overflow"
  else .ok
    { pc := if it.isFirst then it.pc + offsetDelta else it.pc + offsetDelta + 1
      stack := stack
      locals := locals
      table := table
      hasNext := !table.isEmpty
      isFirst := false }

/-- `stack_map_frame_iterator_next`. -/
def FrameIterator.next (maxStack maxLocals : ℕ) (it : FrameIterator) :
    Except String FrameIterator := do
  let (frameKind, t) ← readU8 it.table
  if frameKind ≤ 63 then it.finish maxStack maxLocals [] it.locals t frameKind
  else if frameKind ≤ 127 then
    let (k, t) ← readVerificationType t
    it.finish maxStack maxLocals [k] it.locals t (frameKind - 64)
  else if frameKind ≤ 246 then .error "Reserved frame kind"
  else if frameKind = 247 then
    let (offsetDelta, t) ← readU16 t
    let (k, t) ← readVerificationType t
    it.finish maxStack maxLocals [k] it.locals t offsetDelta
  else if frameKind ≤ 250 then
    let locals ← chopLocals (251 - frameKind) it.locals
    let (offsetDelta, t) ← readU16 t
    it.finish maxStack maxLocals [] locals t offsetDelta
  else if frameKind = 251 then
    let (offsetDelta, t) ← readU16 t
    it.finish maxStack maxLocals [] it.locals t offsetDelta
  else if frameKind ≤ 254 then
    let (offsetDelta, t) ← readU16 t
    let (locals, t) ← readLocals maxLocals "append_frame locals overflow" (frameKind - 251)
      it.locals t
    it.finish maxStack maxLocals [] locals t offsetDelta
  else
    let (offsetDelta, t) ← readU16 t
    let (numLocals, t) ← readU16 t
    let (locals, t) ← readLocals maxLocals "full_frame locals overflow" numLocals [] t
    let (numStack, t) ← readU16 t
    let (stack, t) ← readStack maxStack numStack [] t
    it.finish maxStack maxLocals stack locals t offsetDelta

/-- `init_locals`: the locals on entry, slot by slot. -/
def CodeMethod.initLocals (m : CodeMethod) : List ValidationType :=
  (if m.isStatic then [] else [⟨if m.isCtor then .uninitThis else .object, false⟩]) ++
    m.descriptor.args.flatMap fun a => a.reprKind.validationKind.slots

/-- `stack_map_frame_iterator_init`. A leading one-byte `same_frame` at offset 0 is skipped. -/
def CodeMethod.initIterator (m : CodeMethod) : Except String FrameIterator :=
  let it : FrameIterator :=
    { pc := 0
      stack := []
      locals := m.initLocals
      table := m.stackMapTable.getD []
      hasNext := m.stackMapTable.isSome
      isFirst := true }
  if it.table.head? = some 0 then it.next m.maxStack m.maxLocals else .ok it

end TraceJvm
