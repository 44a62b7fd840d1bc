import Mathlib.Data.List.Sort
import TraceJvm.ArrayAllocation
import TraceJvm.Lib.OrderedMap

/-! The collector of `gc.c` over the heap of a 32-bit target. Memory holds objects and monitors at
their addresses, and what is written over the bytes of another object destroys that object. -/
namespace TraceJvm

open Placement

/-! ### The heap -/

/-- `mark_word_t` -/
structure MarkWord where
  flags : UInt32
  hash : UInt32
  deriving DecidableEq

/-- `IS_REACHABLE` -/
def reachableFlag : UInt32 := 2

namespace MarkWord

def reachable (w : MarkWord) : Bool := w.flags &&& reachableFlag ≠ 0

def mark (w : MarkWord) : MarkWord := { w with flags := w.flags ||| reachableFlag }

def unmark (w : MarkWord) : MarkWord := { w with flags := w.flags &&& ~~~reachableFlag }

end MarkWord

/-- `header_word`. Its lowest bit is `IS_MARK_WORD`, and a monitor lies at an even address. -/
inductive ObjectHeader where
  | mark (word : MarkWord)
  | expanded (monitor : ℕ)
  deriving DecidableEq

def ObjectHeader.monitor : ObjectHeader → Option ℕ
  | .mark _ => none
  | .expanded a => some a

/-- `monitor_data` in the heap; `none` stands for `NOT_HELD_TID`. -/
structure HeapMonitor where
  tid : Option ℕ
  holdCount : UInt32
  markWord : MarkWord

/-- `classdesc_kind` of the classes that have instances. -/
inductive InstanceKind where
  | ordinary
  | ordinaryArray
  | primitiveArray

/-- What the collector reads of a `classdesc`. -/
structure GcClass where
  name : String
  kind : InstanceKind
  dimensions : ℕ
  instanceBytes : ℕ
  /-- The slots of `instance_references`, counted from the end of the header. -/
  instanceReferences : List ℕ
  /-- `instanceof(desc, ctx->Reference)` -/
  isReference : Bool
  /-- `sizeof_type_kind(primitive_component)` -/
  elementBytes : ℕ
  references : instanceReferences.Nodup
  fits : kind = .ordinary → 12 ≤ instanceBytes ∧
    ∀ s ∈ instanceReferences, 12 + 4 * (s + 1) ≤ instanceBytes
  /-- The fields of `native_Reference` come first. -/
  layout : isReference = true → kind = .ordinary ∧ [0, 1, 2, 3] <+: instanceReferences
  dimension : kind = .primitiveArray → dimensions = 1

/-- `java.lang.Object` -/
def objectClass : GcClass where
  name := "java/lang/Object"
  kind := .ordinary
  dimensions := 0
  instanceBytes := 12
  instanceReferences := []
  isReference := false
  elementBytes := 0
  references := List.nodup_nil
  fits := by simp
  layout := nofun
  dimension := nofun

/-- The slot of `referent`. -/
def referentSlot : ℕ := 0

/-- The slot of `discovered`. -/
def discoveredSlot : ℕ := 3

/-- An object. Its contents are the words after the header, or the elements of an array. The number
is read by no code. -/
structure HeapObject where
  id : ℕ
  header : ObjectHeader
  descriptor : GcClass
  length : ℕ
  contents : ℕ → ℕ

namespace HeapObject

def set (o : HeapObject) (slot v : ℕ) : HeapObject :=
  { o with contents := Function.update o.contents slot v }

/-- `size_of_object` -/
def size (o : HeapObject) : ℕ :=
  match o.descriptor.kind with
  | .ordinary => o.descriptor.instanceBytes
  | .ordinaryArray => arrayDataOffset + o.length * 4
  | .primitiveArray => arrayDataOffset + o.length * o.descriptor.elementBytes

/-- The slots that `mark_reachable` visits, and `relocate_instance_fields` first. -/
def strongSlots (o : HeapObject) : List ℕ :=
  match o.descriptor.kind with
  | .ordinary =>
    if o.descriptor.isReference then o.descriptor.instanceReferences.drop 1
    else o.descriptor.instanceReferences
  | .ordinaryArray => List.range o.length
  | .primitiveArray => if 1 < o.descriptor.dimensions then List.range o.length else []

end HeapObject

inductive HeapBlock where
  | object (o : HeapObject)
  | monitor (m : HeapMonitor)

/-- The bytes that a block takes up: `sizeof(monitor_data)` is 16. -/
def HeapBlock.size : HeapBlock → ℕ
  | .object o => alignUp o.size 8
  | .monitor _ => 16

abbrev HeapMemory := ℕ → Option HeapBlock

namespace HeapMemory

def clear (m : HeapMemory) (a n : ℕ) : HeapMemory := fun p =>
  (m p).filter fun c => p + c.size ≤ a ∨ a + n ≤ p

def write (m : HeapMemory) (a : ℕ) (b : HeapBlock) : HeapMemory :=
  Function.update (m.clear a b.size) a (some b)

/-- `get_mark_word` -/
def markWord (m : HeapMemory) (p : ℕ) : Option MarkWord :=
  match m p with
  | some (.object o) =>
    match o.header with
    | .mark w => some w
    | .expanded a =>
      match m a with
      | some (.monitor c) => some c.markWord
      | _ => none
  | _ => none

def setMarkWord (m : HeapMemory) (p : ℕ) (w : MarkWord) : HeapMemory :=
  match m p with
  | some (.object o) =>
    match o.header with
    | .mark _ => Function.update m p (some (.object { o with header := .mark w }))
    | .expanded a =>
      match m a with
      | some (.monitor c) => Function.update m a (some (.monitor { c with markWord := w }))
      | _ => m
  | _ => m

end HeapMemory

/-- What the collector reads and writes of `vm`. -/
structure GcHeap where
  memory : HeapMemory
  /-- `heap` -/
  base : ℕ
  /-- `heap_capacity` -/
  capacity : ℕ
  /-- `heap_used` -/
  used : ℕ
  /-- The values of the roots other than the list. -/
  roots : List ℕ
  /-- `reference_pending_list` -/
  pending : ℕ

def GcHeap.InHeap (h : GcHeap) (p : ℕ) : Prop := h.base ≤ p ∧ p < h.base + h.capacity

instance (h : GcHeap) (p : ℕ) : Decidable (h.InHeap p) := by
  unfold GcHeap.InHeap
  infer_instance

/-! ### The mark phase -/

/-- `gc_ctx` while the objects are marked. The last entry of the worklist comes first here. A
monitor is listed as its address with the lowest bit set. -/
structure MarkState where
  memory : HeapMemory
  objs : List ℕ
  worklist : List ℕ

namespace GcHeap

variable (h : GcHeap)

def visitPointer (s : MarkState) (p : ℕ) : Option MarkState :=
  if p = 0 ∨ ¬ h.InHeap p then some s
  else
    (s.memory.markWord p).map fun w =>
      if w.reachable then s
      else { s with memory := s.memory.setMarkWord p w.mark, worklist := p :: s.worklist }

def visitPointers (s : MarkState) : List ℕ → Option MarkState
  | [] => some s
  | p :: ps => (h.visitPointer s p).bind fun s' => visitPointers s' ps

def markReachable (s : MarkState) (obj : ℕ) : Option MarkState :=
  match s.memory obj with
  | some (.object o) =>
    let objs :=
      match o.header with
      | .mark _ => s.objs ++ [obj]
      | .expanded a => s.objs ++ [obj, a + 1]
    h.visitPointers { s with objs := objs } (o.strongSlots.map o.contents)
  | _ => none

def markLoop : ℕ → MarkState → Option MarkState
  | 0, s => if s.worklist = [] then some s else none
  | n + 1, s =>
    match s.worklist with
    | [] => some s
    | obj :: rest =>
      (s.memory.markWord obj).bind fun w =>
        (h.markReachable
          { s with memory := s.memory.setMarkWord obj w.mark, worklist := rest } obj).bind
            (markLoop n)

/-- An object is popped once only, so the number of addresses bounds the rounds. -/
def markPhase : Option MarkState :=
  (h.visitPointers ⟨h.memory, [], []⟩ (h.pending :: h.roots)).bind (h.markLoop h.capacity)

end GcHeap

/-! ### The copying phase -/

structure SlideState where
  memory : HeapMemory
  /-- `write_ptr` -/
  writePtr : ℕ
  /-- `new_location` -/
  newLocation : List ℕ

/-- `memmove` of a block to `write_ptr`. -/
def SlideState.move (s : SlideState) (b : HeapBlock) : SlideState where
  memory := s.memory.write s.writePtr b
  writePtr := s.writePtr + b.size
  newLocation := s.newLocation ++ [s.writePtr]

def SlideState.copy (s : SlideState) (obj : ℕ) : Option SlideState :=
  let s := { s with writePtr := alignUp s.writePtr 8 }
  if obj % 2 = 1 then
    match s.memory (obj - 1) with
    | some (.monitor c) => some (s.move (.monitor c))
    | _ => none
  else
    (s.memory.markWord obj).bind fun w =>
      let s := { s with memory := s.memory.setMarkWord obj w.unmark }
      match s.memory obj with
      | some (.object o) => some (s.move (.object o))
      | _ => none

def SlideState.copyAll (s : SlideState) : List ℕ → Option SlideState
  | [] => some s
  | obj :: objs => (s.copy obj).bind fun s' => s'.copyAll objs

/-! ### The relocation phase -/

/-- `objs` and `new_location` together. -/
abbrev Relocation := List (ℕ × ℕ)

/-- `relocate_object`: the new value, and whether there is one. -/
def Relocation.object (r : Relocation) (p : ℕ) : ℕ × Bool :=
  if p = 0 then (p, true)
  else
    match OrderedMap.get r p with
    | some p' => (p', true)
    | none => (p, false)

def GcHeap.relocateRoot (h : GcHeap) (r : Relocation) (p : ℕ) : ℕ :=
  if p = 0 ∨ ¬ h.InHeap p then p else (r.object p).1

def HeapObject.relocateStrong (r : Relocation) (o : HeapObject) : HeapObject :=
  o.strongSlots.foldl (fun o s => o.set s (r.object (o.contents s)).1) o

/-- The field `referent` of a `Reference` at the address, and the pending list. -/
def HeapObject.relocateReferent (r : Relocation) (address : ℕ) (o : HeapObject) (pending : ℕ) :
    HeapObject × ℕ :=
  let slot := o.descriptor.instanceReferences.headD 0
  let found := r.object (o.contents slot)
  let o := o.set slot found.1
  if found.2 then (o, pending)
  else
    let o := o.set referentSlot 0
    if o.contents discoveredSlot = 0 then (o.set discoveredSlot pending, address)
    else (o, pending)

/-- The header with the new place of the monitor. Where there is none, the collector aborts. -/
def ObjectHeader.relocate (r : Relocation) : ObjectHeader → Option ObjectHeader
  | .mark w => some (.mark w)
  | .expanded a => (OrderedMap.get r (a + 1)).map .expanded

/-- `relocate_instance_fields` for one object. -/
def HeapObject.relocateFields (r : Relocation) (address : ℕ) (o : HeapObject) (pending : ℕ) :
    Option (HeapObject × ℕ) :=
  (o.header.relocate r).map fun header =>
    let o := { o with header := header }.relocateStrong r
    if o.descriptor.isReference then o.relocateReferent r address pending else (o, pending)

/-- `relocate_instance_fields`; the list gives the entries of `objs` with their new places. -/
def relocateInstanceFields (r : Relocation) (memory : HeapMemory) (pending : ℕ) :
    Relocation → Option (HeapMemory × ℕ)
  | [] => some (memory, pending)
  | (obj, address) :: rest =>
    if obj % 2 = 1 then relocateInstanceFields r memory pending rest
    else
      match memory address with
      | some (.object o) =>
        (o.relocateFields r address pending).bind fun q =>
          relocateInstanceFields r (Function.update memory address (some (.object q.1))) q.2 rest
      | _ => none

/-- `major_gc`. The new heap is the old one, or in a build with checks a separate one. The pending
list is relocated with the other roots, before the fields are. -/
def GcHeap.majorGc (h : GcHeap) (newHeap : ℕ) : Option GcHeap :=
  h.markPhase.bind fun s =>
    let objs := s.objs.insertionSort (· ≤ ·)
    (SlideState.copyAll ⟨s.memory, newHeap, []⟩ objs).bind fun t =>
      let r := objs.zip t.newLocation
      (relocateInstanceFields r t.memory (h.relocateRoot r h.pending) r).map fun q =>
        { memory := q.1
          base := newHeap
          capacity := h.capacity
          used := alignUp (t.writePtr - newHeap) 8
          roots := h.roots.map (h.relocateRoot r)
          pending := q.2 }

end TraceJvm
