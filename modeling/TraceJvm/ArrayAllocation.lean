import TraceJvm.FieldLayout

/-! The creation of arrays on a target with 32-bit `size_t`. The sizes are computed modulo 2^32
before the allocator compares them with what is left of the heap. -/
namespace TraceJvm

/-! ### The heap -/

/-- The number of values of a `size_t`. -/
def sizeWord : ℕ := 4294967296

/-- `memset(a, 0, n)` -/
def zeroBytes (m : ℕ → UInt8) (a n : ℕ) : ℕ → UInt8 := fun i =>
  if a ≤ i ∧ i < a + n then 0 else m i

def store32 (m : ℕ → UInt8) (a v : ℕ) : ℕ → UInt8 := fun i =>
  if a ≤ i ∧ i < a + 4 then UInt8.ofNat (v / 256 ^ (i - a)) else m i

def load32 (m : ℕ → UInt8) (a : ℕ) : ℕ :=
  (m a).toNat + 256 * (m (a + 1)).toNat + 65536 * (m (a + 2)).toNat + 16777216 * (m (a + 3)).toNat

structure VmHeap where
  capacity : ℕ
  /-- The bytes of linear memory from the start of the heap on. -/
  limit : ℕ
  used : ℕ
  bytes : ℕ → UInt8
  /-- The objects, each with its address and the bytes reserved for it. -/
  objects : List (ℕ × ℕ)
  /-- The handles that the creation of an array holds; a handle may be of null. -/
  handles : List (Option ℕ)
  /-- The number of collections so far. -/
  collections : ℕ

structure Compaction where
  bytes : ℕ → UInt8
  objects : List (ℕ × ℕ)
  relocate : ℕ → ℕ

/-- The collector: how many bytes are live at each collection, and where the objects go. -/
structure Collector where
  live : ℕ → ℕ
  compact : ℕ → VmHeap → Compaction
  below : ∀ k h o, o ∈ (compact k h).objects → o.1 + o.2 ≤ min (live k) h.used

namespace VmHeap

def majorGc (gc : Collector) (h : VmHeap) : VmHeap :=
  { h with
    used := min (gc.live h.collections) h.used
    bytes := (gc.compact h.collections h).bytes
    objects := (gc.compact h.collections h).objects
    handles := h.handles.map (Option.map (gc.compact h.collections h).relocate)
    collections := h.collections + 1 }

structure Sound (h : VmHeap) : Prop where
  used : h.used ≤ h.capacity
  capacity : h.capacity < sizeWord
  limit : h.capacity ≤ h.limit
  objects : ∀ o ∈ h.objects, o.1 + o.2 ≤ h.used

/-- `align_up(bytes, 8)` -/
def alignBytes (bytes : ℕ) : ℕ := (bytes + 7) % sizeWord / 8 * 8

/-- `heap_used + bytes > heap_capacity` -/
def exceeds (h : VmHeap) (bytes : ℕ) : Bool := h.capacity < (h.used + bytes) % sizeWord

end VmHeap

inductive Made where
  | array (start : ℕ)
  /-- `out_of_memory` has been raised, and null is returned. -/
  | exhausted
  /-- A store beyond the linear memory. -/
  | trapped

namespace VmHeap

/-- The last part of `bump_allocate`. -/
def take (h : VmHeap) (bytes : ℕ) : Made × VmHeap :=
  if h.limit < h.used + bytes then (.trapped, h)
  else
    (.array h.used, { h with
      bytes := zeroBytes h.bytes h.used bytes
      objects := (h.used, bytes) :: h.objects
      used := (h.used + bytes) % sizeWord })

def bumpAllocate (gc : Collector) (h : VmHeap) (bytes : ℕ) : Made × VmHeap :=
  let bytes := alignBytes bytes
  if h.exceeds bytes then
    if (h.majorGc gc).exceeds bytes then (.exhausted, h.majorGc gc)
    else (h.majorGc gc).take bytes
  else h.take bytes

/-- `AllocateObject`: the mark word and the descriptor. -/
def allocateObject (gc : Collector) (h : VmHeap) (descriptor bytes : ℕ) : Made × VmHeap :=
  match h.bumpAllocate gc bytes with
  | (.array start, h') =>
    (.array start, { h' with bytes := store32 (store32 h'.bytes start 1) (start + 8) descriptor })
  | failed => failed

end VmHeap

/-- `kArrayLengthOffset`: a mark word of eight bytes and a pointer of four. -/
def arrayLengthOffset : ℕ := 12

/-- `kArrayDataOffset` -/
def arrayDataOffset : ℕ := 16

/-- `count * size` in 32 bits. -/
def dataBytes (count : Int32) (size : ℕ) : ℕ := (count.toInt * size % sizeWord).toNat

/-- `create_1d_primitive_array` and `CreateObjectArray1D`: an array of `count` elements of `size`
bytes. -/
def VmHeap.createArray1D (gc : Collector) (h : VmHeap) (descriptor size : ℕ) (count : Int32) :
    Made × VmHeap :=
  match h.allocateObject gc descriptor ((arrayDataOffset + dataBytes count size) % sizeWord) with
  | (.array start, h') =>
    if h'.limit < start + arrayDataOffset + dataBytes count size then (.trapped, h')
    else
      (.array start, { h' with
        bytes := zeroBytes (store32 h'.bytes (start + arrayLengthOffset) (dataBytes count 1))
          (start + arrayDataOffset) (dataBytes count size) })
  | failed => failed

structure Creation where
  heap : VmHeap
  start : ℕ
  count : Int32
  size : ℕ

/-! ### The paths -/

structure ComponentKind where
  kind : TypeKind
  notVoid : kind ≠ .void

/-- `sizeof_type_kind` on the target. -/
def ComponentKind.size (k : ComponentKind) : ℕ := (sizeofTypeKind .bits32 k.kind).getD 0

def ComponentKind.reference : ComponentKind := ⟨.reference, nofun⟩

inductive ArrayPath where
  /-- The instruction, interpreted or compiled. -/
  | newarray (kind : ComponentKind) (count : Int32)
  | anewarray (count : Int32)
  /-- The dimensions from the outermost on. -/
  | multianewarray (kind : ComponentKind) (first : Int32) (rest : List Int32)
  /-- `java.lang.reflect.Array.newArray` -/
  | reflectNewArray (kind : ComponentKind) (count : Int32)
  /-- `Object.clone` of an array of the length, whose elements have these bytes. -/
  | clone (kind : ComponentKind) (count : Int32) (source : ℕ → UInt8)
  /-- A native method asks for an array of a length that it has computed. -/
  | native (kind : ComponentKind) (count : Int32)

inductive ArrayOutcome where
  | returned (start : ℕ)
  | negativeArraySize (count : Int32)
  | outOfMemory
  /-- The instruction completes with null although an exception is pending. -/
  | nullResult
  | trapped
  deriving DecidableEq

structure PathRun where
  outcome : ArrayOutcome
  heap : VmHeap
  created : List Creation

def oneArray (gc : Collector) (h : VmHeap) (descriptor : ℕ) (kind : ComponentKind)
    (count : Int32) : PathRun :=
  match h.createArray1D gc descriptor kind.size count with
  | (.array start, h') => ⟨.returned start, h', [⟨h', start, count, kind.size⟩]⟩
  | (.exhausted, h') => ⟨.outOfMemory, h', []⟩
  | (.trapped, h') => ⟨.trapped, h', []⟩

def checkedArray (gc : Collector) (h : VmHeap) (descriptor : ℕ) (kind : ComponentKind)
    (count : Int32) : PathRun :=
  if count < 0 then ⟨.negativeArraySize count, h, []⟩ else oneArray gc h descriptor kind count

/-- `memcpy(a, source, n)` -/
def copyBytes (m : ℕ → UInt8) (a n : ℕ) (source : ℕ → UInt8) : ℕ → UInt8 := fun i =>
  if a ≤ i ∧ i < a + n then source (i - a) else m i

def copyElements (r : PathRun) (kind : ComponentKind) (count : Int32) (source : ℕ → UInt8) :
    PathRun :=
  match r.outcome with
  | .returned start =>
    let bytes := copyBytes r.heap.bytes (start + arrayDataOffset) (dataBytes count kind.size) source
    { r with heap := { r.heap with bytes := bytes } }
  | _ => r

/-- The state of `CreateArray`: the heap, and the arrays created so far. -/
structure Nest where
  heap : VmHeap
  created : List Creation

/-- `ReferenceArrayStore(arr->obj, i, subarray)`; a null array is written to like any other. -/
def VmHeap.storeReference (h : VmHeap) (i subarray : ℕ) : VmHeap :=
  match h.handles with
  | some arr :: _ => { h with bytes := store32 h.bytes (arr + arrayDataOffset + 4 * i) subarray }
  | _ => h

/-- The loop of `CreateArray` over the elements from `i` on. -/
def fillArray (sub : Nest → Made × Nest) (s : Nest) (i : ℕ) : ℕ → Made × Nest
  | 0 => (.array 0, s)
  | n + 1 =>
    match sub s with
    | (.array start, s') =>
      fillArray sub { s' with heap := s'.heap.storeReference i start } (i + 1) n
    | failed => failed

/-- One array of `CreateArray`. -/
def Nest.create (gc : Collector) (descriptor size : ℕ) (count : Int32) (s : Nest) : Made × Nest :=
  match s.heap.createArray1D gc descriptor size count with
  | (.array start, h') => (.array start, ⟨h', ⟨h', start, count, size⟩ :: s.created⟩)
  | (failed, h') => (failed, { s with heap := h' })

def VmHeap.dropHandle (h : VmHeap) : Option ℕ × VmHeap :=
  (h.handles.head?.getD none, { h with handles := h.handles.tail })

/-- `make_handle` -/
def Nest.hold (s : Nest) (arr : Option ℕ) : Nest :=
  { s with heap := { s.heap with handles := arr :: s.heap.handles } }

/-- The end of `CreateArray`, where the result is the object of the handle, or null. -/
def Nest.release : Made × Nest → Made × Nest
  | (.array _, s) =>
    (match s.heap.dropHandle.1 with
      | some start => .array start
      | none => .exhausted, { s with heap := s.heap.dropHandle.2 })
  | (failed, s) => (failed, { s with heap := s.heap.dropHandle.2 })

/-- `CreateArray`: whether the outer array is null is not looked at. -/
def createArray (gc : Collector) (descriptor : ℕ) (kind : ComponentKind) (first : Int32) :
    List Int32 → Nest → Made × Nest
  | [], s => s.create gc descriptor kind.size first
  | second :: rest, s =>
    let fill := fun s => fillArray (createArray gc descriptor kind second rest) s 0
      first.toInt.toNat
    match s.create gc descriptor ComponentKind.reference.size first with
    | (.array start, s') => Nest.release (fill (s'.hold (some start)))
    | (.exhausted, s') => Nest.release (fill (s'.hold none))
    | (.trapped, s') => (.trapped, s')

/-- `multianewarray`: the result of `CreateArray` is not looked at. -/
def multiArray (gc : Collector) (h : VmHeap) (descriptor : ℕ) (kind : ComponentKind)
    (first : Int32) (rest : List Int32) : PathRun :=
  match (first :: rest).find? (· < 0) with
  | some count => ⟨.negativeArraySize count, h, []⟩
  | none =>
    match createArray gc descriptor kind first rest ⟨h, []⟩ with
    | (.array start, s) => ⟨.returned start, s.heap, s.created⟩
    | (.exhausted, s) => ⟨.nullResult, s.heap, s.created⟩
    | (.trapped, s) => ⟨.trapped, s.heap, s.created⟩

def ArrayPath.run (gc : Collector) (h : VmHeap) (descriptor : ℕ) : ArrayPath → PathRun
  | .newarray kind count => checkedArray gc h descriptor kind count
  | .anewarray count => checkedArray gc h descriptor .reference count
  | .multianewarray kind first rest => multiArray gc h descriptor kind first rest
  | .reflectNewArray kind count => oneArray gc h descriptor kind count
  | .clone kind count source =>
    copyElements (oneArray gc h descriptor kind count) kind count source
  | .native kind count => oneArray gc h descriptor kind count

end TraceJvm
