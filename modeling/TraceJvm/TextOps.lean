import TraceJvm.ArrayAllocation
import TraceJvm.StringBridge
import TraceJvm.Lib.AppendBuffer
import TraceJvm.Lib.JsonString

/-! The natives of `TextOps` that assemble JSON texts in a buffer of a capacity that they compute
beforehand, on a target with 32-bit `size_t`. -/
namespace TraceJvm

open AppendBuffer JsonString

def ascii (s : String) : List UInt8 := s.toList.map fun c => UInt8.ofNat c.toNat

/-- `%d` and `%lld` -/
def decimal (z : ℤ) : List UInt8 :=
  (if z < 0 then ascii "-" else []) ++
    (Nat.toDigits 10 z.natAbs).map fun c => UInt8.ofNat c.toNat

/-- A digit of `%x`. -/
def hexByte (n : ℕ) : UInt8 := UInt8.ofNat (if n < 10 then 0x30 + n else 0x57 + n)

/-- `\u%04x` of a byte. -/
def unicodeEscape (ch : UInt8) : List UInt8 :=
  ascii "\\u00" ++ [hexByte (ch.toNat / 16), hexByte (ch.toNat % 16)]

/-- What is written for one character; the two escaping routines differ in how they format. -/
def escapePieces (formatted : List UInt8 → Piece UInt8) (ch : UInt8) : List (Piece UInt8) :=
  if ch = 0x22 then [.put 0x5C, .put 0x22]
  else if ch = 0x5C then [.put 0x5C, .put 0x5C]
  else if ch = 0x0A then [.put 0x5C, .put 0x6E]
  else if ch = 0x0D then [.put 0x5C, .put 0x72]
  else if ch = 0x09 then [.put 0x5C, .put 0x74]
  else if ch < 0x20 then [formatted (unicodeEscape ch)]
  else [.put ch]

/-- The writes of `json_escape_latin1` before the closing quote. -/
def jsonEscapeLatin1 (bytes : List UInt8) : List (Piece UInt8) :=
  .put 0x22 :: bytes.flatMap (escapePieces .formatWithin)

/-- The writes of `write_json_escaped`. -/
def writeJsonEscaped (bytes : List UInt8) : List (Piece UInt8) :=
  .put 0x22 :: bytes.flatMap (escapePieces .format) ++ [.put 0x22]

structure Latin1View where
  bytes : List UInt8
  present : Bool
  ok : Bool

def viewLatin1 : Option JavaString → Latin1View
  | none => ⟨[], false, true⟩
  | some string =>
    match string.coder with
    | .utf16 => ⟨[], false, false⟩
    | .latin1 => ⟨string.value, true, true⟩

/-- An array of `int` or `long`. -/
inductive NumberArray where
  | ints (data : List Int32)
  | longs (data : List Int64)

def NumberArray.numbers : NumberArray → List ℤ
  | ints data => data.map Int32.toInt
  | longs data => data.map Int64.toInt

def NumberArray.wide : NumberArray → Bool
  | ints _ => false
  | longs _ => true

/-- A text in a block of memory from `malloc`. -/
structure Assembly where
  capacity : ℕ
  buffer : Buffer UInt8

/-- `malloc`: the former contents of the block, or null. -/
abbrev Malloc := ℕ → Option (ℕ → UInt8)

def assemble (malloc : Malloc) (capacity : ℕ) (ps : List (Piece UInt8)) (last : UInt8) :
    Option Assembly :=
  (malloc (capacity % sizeWord)).map fun block =>
    ⟨capacity % sizeWord,
      emitAll sizeWord (capacity % sizeWord) 0 ⟨block, 0, 0⟩ (ps ++ [.put last])⟩

/-! ### The natives -/

/-- The capacity of `json_number_array` before it is taken modulo `sizeWord`. -/
def numberArrayCapacity (emitted : ℕ) (wide : Bool) : ℕ :=
  emitted * (if wide then 22 else 13) + 64

/-- The writes of the loop of `json_number_array`. -/
def numberPieces (numbers : List ℤ) (emitted : ℕ) : List (Piece UInt8) :=
  (List.range emitted).flatMap fun index =>
    (if 0 < index then [.put 0x2C] else []) ++ [.formatWithin (decimal (numbers.getD index 0))]

def truncationMarker (remaining : ℤ) : List UInt8 :=
  ascii "\x7b\"__truncated__\":true,\"remaining\":" ++ decimal remaining ++ ascii "\x7d"

def jsonNumberArray (malloc : Malloc) (array : Option NumberArray) (emitted total : Int32) :
    Option Assembly :=
  match array with
  | none => none
  | some array =>
    if emitted < 0 ∨ (array.numbers.length : ℤ) < emitted.toInt ∨ total < emitted then none
    else
      assemble malloc (numberArrayCapacity emitted.toInt.toNat array.wide)
        (.put 0x5B :: numberPieces array.numbers emitted.toInt.toNat ++
          if emitted < total then
            (if 0 < emitted then [.put 0x2C] else []) ++
              [.formatWithin (truncationMarker (total.toInt - emitted.toInt))]
          else [])
        0x5D

def escapeCapacity (length : ℕ) : ℕ := length * 6 + 3

def jsonEscape0 (malloc : Malloc) (value : Option JavaString) : Option Assembly :=
  match value with
  | none => none
  | some value =>
    match value.coder with
    | .utf16 => none
    | .latin1 =>
      assemble malloc (escapeCapacity value.value.length) (jsonEscapeLatin1 value.value) 0x22

def verbatimField (label : String) (view : Latin1View) : List (Piece UInt8) :=
  if view.present then [.format (ascii label), .copy view.bytes] else []

def recordCapacity (header name path sources value function suffix : Latin1View) : ℕ :=
  96 + header.bytes.length + name.bytes.length * 6 + function.bytes.length * 6 + path.bytes.length +
    sources.bytes.length + value.bytes.length + suffix.bytes.length

def recordPieces (header : Latin1View) (line : Int32)
    (name path sources value function suffix : Latin1View) : List (Piece UInt8) :=
  [.copy header.bytes, .format (ascii ",\"line\":" ++ decimal line.toInt)] ++
    (if function.present then
      .format (ascii ",\"function\":") :: writeJsonEscaped function.bytes
    else []) ++
    (if name.present then
      .format (ascii ",\"target\":\x7b\"variable\":") :: writeJsonEscaped name.bytes ++
        verbatimField ",\"path\":" path ++ verbatimField ",\"indexSources\":" sources ++
        [.put 0x7D]
    else []) ++
    verbatimField ",\"value\":" value ++
    (if suffix.present then [.copy suffix.bytes] else [])

def buildRecord0 (malloc : Malloc) (header : Option JavaString) (line : Int32)
    (name path sources value function suffix : Option JavaString) : Option Assembly :=
  let header := viewLatin1 header
  let name := viewLatin1 name
  let path := viewLatin1 path
  let sources := viewLatin1 sources
  let value := viewLatin1 value
  let function := viewLatin1 function
  let suffix := viewLatin1 suffix
  if !header.ok || !name.ok || !path.ok || !sources.ok || !value.ok || !function.ok || !suffix.ok ||
      !header.present then none
  else
    assemble malloc (recordCapacity header name path sources value function suffix)
      (recordPieces header line name path sources value function suffix) 0x7D

def indexedRecordCapacity (header name sources value suffix : Latin1View) : ℕ :=
  128 + header.bytes.length + name.bytes.length * 6 + sources.bytes.length + value.bytes.length +
    suffix.bytes.length

def indexedRecordPieces (header : Latin1View) (line : Int32) (name : Latin1View) (index : Int32)
    (sources value suffix : Latin1View) : List (Piece UInt8) :=
  [.copy header.bytes,
    .format (ascii ",\"line\":" ++ decimal line.toInt ++ ascii ",\"target\":\x7b\"variable\":")] ++
    writeJsonEscaped name.bytes ++
    [.format (ascii ",\"path\":[" ++ decimal index.toInt ++ ascii "]")] ++
    verbatimField ",\"indexSources\":" sources ++
    [.format (ascii "\x7d,\"value\":"), .copy value.bytes] ++
    (if suffix.present then [.copy suffix.bytes] else [])

def buildIndexedRecord0 (malloc : Malloc) (header : Option JavaString) (line : Int32)
    (name : Option JavaString) (index : Int32) (sources value suffix : Option JavaString) :
    Option Assembly :=
  let header := viewLatin1 header
  let name := viewLatin1 name
  let sources := viewLatin1 sources
  let value := viewLatin1 value
  let suffix := viewLatin1 suffix
  if !header.ok || !name.ok || !sources.ok || !value.ok || !suffix.ok || !header.present ||
      !name.present || !value.present then none
  else
    assemble malloc (indexedRecordCapacity header name sources value suffix)
      (indexedRecordPieces header line name index sources value suffix) 0x7D

inductive TextCall where
  | numberArray (array : Option NumberArray) (emitted total : Int32)
  | escape (value : Option JavaString)
  | record (header : Option JavaString) (line : Int32)
      (name path sources value function suffix : Option JavaString)
  | indexedRecord (header : Option JavaString) (line : Int32) (name : Option JavaString)
      (index : Int32) (sources value suffix : Option JavaString)

def TextCall.run (malloc : Malloc) : TextCall → Option Assembly
  | numberArray array emitted total => jsonNumberArray malloc array emitted total
  | escape value => jsonEscape0 malloc value
  | record header line name path sources value function suffix =>
      buildRecord0 malloc header line name path sources value function suffix
  | indexedRecord header line name index sources value suffix =>
      buildIndexedRecord0 malloc header line name index sources value suffix

/-! ### The texts -/

def escapedByte (ch : UInt8) : List UInt8 :=
  if ch = 0x22 then ascii "\\\""
  else if ch = 0x5C then ascii "\\\\"
  else if ch = 0x0A then ascii "\\n"
  else if ch = 0x0D then ascii "\\r"
  else if ch = 0x09 then ascii "\\t"
  else if ch < 0x20 then unicodeEscape ch
  else [ch]

def quoted (bytes : List UInt8) : List UInt8 := 0x22 :: bytes.flatMap escapedByte ++ [0x22]

def commaSeparated : List (List UInt8) → List UInt8
  | [] => []
  | t :: ts => t ++ ts.flatMap fun u => 0x2C :: u

def numberArrayText (numbers : List ℤ) (emitted total : ℤ) : List UInt8 :=
  0x5B :: commaSeparated ((numbers.take emitted.toNat).map decimal ++
    if emitted < total then [truncationMarker (total - emitted)] else []) ++ [0x5D]

def jsonField (label : String) (value : Option (List UInt8)) : List UInt8 :=
  value.elim [] fun t => ascii label ++ t

def recordText (header : List UInt8) (line : ℤ)
    (name path sources value function suffix : Option (List UInt8)) : List UInt8 :=
  header ++ ascii ",\"line\":" ++ decimal line ++
    jsonField ",\"function\":" (function.map quoted) ++
    (name.elim [] fun n => ascii ",\"target\":\x7b\"variable\":" ++ quoted n ++
      jsonField ",\"path\":" path ++ jsonField ",\"indexSources\":" sources ++ [0x7D]) ++
    jsonField ",\"value\":" value ++ suffix.getD [] ++ [0x7D]

def indexedRecordText (header : List UInt8) (line : ℤ) (name : List UInt8) (index : ℤ)
    (sources : Option (List UInt8)) (value : List UInt8) (suffix : Option (List UInt8)) :
    List UInt8 :=
  recordText header line (some name) (some (ascii "[" ++ decimal index ++ ascii "]")) sources
    (some value) none suffix

/-- The bytes of an optional argument; `none` if it is a string of the other coder. -/
def latin1Bytes : Option JavaString → Option (Option (List UInt8))
  | none => some none
  | some string =>
    match string.coder with
    | .utf16 => none
    | .latin1 => some (some string.value)

/-- The text that a call is to assemble; `none` if the call is refused. -/
def TextCall.text : TextCall → Option (List UInt8)
  | numberArray array emitted total => do
      let array ← array
      if 0 ≤ emitted.toInt ∧ emitted.toInt ≤ array.numbers.length ∧ emitted.toInt ≤ total.toInt then
        return numberArrayText array.numbers emitted.toInt total.toInt
      else none
  | escape value => do
      let bytes ← (← latin1Bytes value)
      return quoted bytes
  | record header line name path sources value function suffix => do
      let header ← (← latin1Bytes header)
      return recordText header line.toInt (← latin1Bytes name) (← latin1Bytes path)
        (← latin1Bytes sources) (← latin1Bytes value) (← latin1Bytes function)
        (← latin1Bytes suffix)
  | indexedRecord header line name index sources value suffix => do
      let header ← (← latin1Bytes header)
      let name ← (← latin1Bytes name)
      let value ← (← latin1Bytes value)
      return indexedRecordText header line.toInt name index.toInt (← latin1Bytes sources) value
        (← latin1Bytes suffix)

/-- The capacity that a call asks for, before it is taken modulo `sizeWord`. -/
def TextCall.capacity : TextCall → ℕ
  | numberArray array emitted _ =>
      numberArrayCapacity emitted.toInt.toNat ((array.map NumberArray.wide).getD false)
  | escape value => escapeCapacity (viewLatin1 value).bytes.length
  | record header _ name path sources value function suffix =>
      recordCapacity (viewLatin1 header) (viewLatin1 name) (viewLatin1 path) (viewLatin1 sources)
        (viewLatin1 value) (viewLatin1 function) (viewLatin1 suffix)
  | indexedRecord header _ name _ sources value suffix =>
      indexedRecordCapacity (viewLatin1 header) (viewLatin1 name) (viewLatin1 sources)
        (viewLatin1 value) (viewLatin1 suffix)

structure Assembly.Exact (a : Assembly) (text : List UInt8) : Prop where
  bounds : a.buffer.peak ≤ a.capacity
  text : a.buffer.text = text

end TraceJvm
