import TraceJvm.FieldLayout
import TraceJvm.Lib.ByteMemory

/-! `store_stack_value` and `load_stack_value`. Memory is little-endian, and a reference is that to
an object, wherever a collection moves it. -/
namespace TraceJvm

open ByteMemory MemByte Option

abbrev CellMemory := ℕ → MemByte ℕ

/-- The value of a declared type that an `int` from the stack stands for. -/
def narrowInt : TypeKind → BitVec 32 → BitVec 32
  | .boolean, v => v &&& 1
  | .byte, v => (v.setWidth 8).signExtend 32
  | .char, v => (v.setWidth 16).setWidth 32
  | .short, v => (v.setWidth 16).signExtend 32
  | _, v => v

/-- A `stack_value` with the member that is in use. -/
inductive FieldValue where
  | int (v : BitVec 32)
  | long (v : BitVec 64)
  | float (bits : BitVec 32)
  | double (bits : BitVec 64)
  | reference (o : Option ℕ)
  deriving DecidableEq

namespace FieldValue

def kind : FieldValue → TypeKind
  | int _ => .int
  | long _ => .long
  | float _ => .float
  | double _ => .double
  | reference _ => .reference

def zero : TypeKind → FieldValue
  | .long => long 0
  | .float => float 0
  | .double => double 0
  | .reference => reference none
  | _ => int 0

def cells (w : PointerWidth) : FieldValue → List (MemByte ℕ)
  | int v => encodeNumber 4 v.toNat
  | long v => encodeNumber 8 v.toNat
  | float bits => encodeNumber 4 bits.toNat
  | double bits => encodeNumber 8 bits.toNat
  | reference o => encodeReference w.bytes o

def narrow (kind : TypeKind) : FieldValue → FieldValue
  | int v => int (narrowInt kind v)
  | v => v

end FieldValue

/-- The bytes that `store_stack_value` writes; `none` if the value is in another member. -/
def storedCells (w : PointerWidth) : TypeKind → FieldValue → Option (List (MemByte ℕ))
  | .boolean, .int v | .byte, .int v => some (encodeNumber 1 v.toNat)
  | .char, .int v | .short, .int v => some (encodeNumber 2 v.toNat)
  | kind, v => if v.kind = kind then some (v.cells w) else none

def storeStackValue (w : PointerWidth) (mem : CellMemory) (loc : ℕ) (v : FieldValue)
    (kind : TypeKind) : Option CellMemory :=
  (storedCells w kind v).map fun cells => write mem loc cells

/-- The value that `load_stack_value` makes of the bytes of the kind. -/
def loadedValue : TypeKind → List (MemByte ℕ) → Option FieldValue
  | .boolean, cells | .byte, cells =>
      (decodeNumber cells).map fun n => .int ((BitVec.ofNat 8 n).signExtend 32)
  | .char, cells => (decodeNumber cells).map fun n => .int ((BitVec.ofNat 16 n).setWidth 32)
  | .short, cells => (decodeNumber cells).map fun n => .int ((BitVec.ofNat 16 n).signExtend 32)
  | .int, cells => (decodeNumber cells).map fun n => .int (BitVec.ofNat 32 n)
  | .long, cells => (decodeNumber cells).map fun n => .long (BitVec.ofNat 64 n)
  | .float, cells => (decodeNumber cells).map fun n => .float (BitVec.ofNat 32 n)
  | .double, cells => (decodeNumber cells).map fun n => .double (BitVec.ofNat 64 n)
  | .reference, cells => (decodeReference cells).map .reference
  | .void, _ => none

def loadStackValue (w : PointerWidth) (mem : CellMemory) (loc : ℕ) (kind : TypeKind) :
    Option FieldValue :=
  (sizeofTypeKind w kind).bind fun n => loadedValue kind (read mem loc n)

/-- The type of a field as it is declared, which `repr_kind` widens. -/
def FieldDescriptor.declaredKind (d : FieldDescriptor) : TypeKind :=
  if d.dimensions ≠ 0 then .reference else d.baseKind

theorem FieldDescriptor.reprKind_eq (d : FieldDescriptor) :
    d.reprKind = d.declaredKind.representable := by
  unfold reprKind declaredKind
  split
  · rfl
  · rfl

variable {w : PointerWidth} {v : FieldValue} {kind : TypeKind} {mem : CellMemory} {loc m n : ℕ}

theorem FieldValue.sizeof_kind (w : PointerWidth) (v : FieldValue) :
    sizeofTypeKind w v.kind = some (v.cells w).length := by
  cases v <;> simp [kind, cells, sizeofTypeKind]

theorem storedCells_kind (w : PointerWidth) (v : FieldValue) :
    storedCells w v.kind v = some (v.cells w) := by
  cases v <;> rfl

theorem FieldValue.zero_kind (h : kind.representable ≠ .void) :
    (zero kind.representable).kind = kind.representable := by
  cases kind <;> first | rfl | exact absurd rfl h

theorem loadedValue_cells (w : PointerWidth) (v : FieldValue) :
    loadedValue v.kind (v.cells w) = some v := by
  cases v with
  | reference o =>
    show (decodeReference (encodeReference w.bytes o)).map FieldValue.reference = _
    rw [decodeReference_encodeReference w.bytes_pos]
    rfl
  | int v | float v =>
    simp only [FieldValue.kind, FieldValue.cells, loadedValue, decodeNumber_encodeNumber, map_some]
    congr 2
    apply BitVec.eq_of_toNat_eq
    have hlt := v.isLt
    rw [BitVec.toNat_ofNat]
    omega
  | long v | double v =>
    simp only [FieldValue.kind, FieldValue.cells, loadedValue, decodeNumber_encodeNumber, map_some]
    congr 2
    apply BitVec.eq_of_toNat_eq
    have hlt := v.isLt
    rw [BitVec.toNat_ofNat]
    omega

theorem loadStackValue_of_read (h : read mem loc (v.cells w).length = v.cells w) :
    loadStackValue w mem loc v.kind = some v := by
  unfold loadStackValue
  rw [v.sizeof_kind, bind_some, h, loadedValue_cells]

theorem FieldValue.cells_zero (w : PointerWidth) (kind : TypeKind) :
    (zero kind).cells w = List.replicate ((zero kind).cells w).length (byte 0) := by
  cases kind <;> simp [zero, cells, encodeReference] <;> rfl

/-! ### Narrow reads of an `int` -/

theorem take_encodeNumber {w m n : ℕ} (h : m ≤ w) :
    (encodeNumber w n : List (MemByte ℕ)).take m = encodeNumber m n := by
  induction m generalizing w n with
  | zero => rfl
  | succ m ih =>
    obtain ⟨w, rfl⟩ : ∃ v, w = v + 1 := ⟨w - 1, by omega⟩
    show byte (UInt8.ofNat n) :: (encodeNumber w (n / 256)).take m = _
    rw [ih (by omega)]
    rfl

theorem decodeNumber_low {v : BitVec 32} (hread : read mem loc 4 = encodeNumber 4 v.toNat)
    (hn : n ≤ 4) : decodeNumber (read mem loc n) = some (v.toNat % 256 ^ n) := by
  rw [← read_take hn, hread, take_encodeNumber hn, decodeNumber_encodeNumber]

theorem ofNat_low (v : BitVec 32) (h : 256 ^ n = 2 ^ m) :
    BitVec.ofNat m (v.toNat % 256 ^ n) = v.setWidth m := by
  apply BitVec.eq_of_toNat_eq
  rw [BitVec.toNat_ofNat, BitVec.toNat_setWidth, h, Nat.mod_mod]

/-- `load_stack_value` narrows, except that it sign-extends the byte of a boolean. -/
theorem loadStackValue_int {v : BitVec 32} (hread : read mem loc 4 = encodeNumber 4 v.toNat)
    (hkind : kind.representable = .int) : loadStackValue w mem loc kind =
      some (.int (narrowInt (if kind = .boolean then .byte else kind) v)) := by
  have hone := decodeNumber_low hread (show 1 ≤ 4 by omega)
  have htwo := decodeNumber_low hread (show 2 ≤ 4 by omega)
  have hfour := decodeNumber_low hread (Nat.le_refl 4)
  cases kind with
  | boolean | byte =>
    simp only [loadStackValue, sizeofTypeKind, bind_some, loadedValue, hone, map_some,
      narrowInt, ofNat_low v (show 256 ^ 1 = 2 ^ 8 from rfl), if_true, reduceCtorEq, if_false]
  | char | short =>
    simp only [loadStackValue, sizeofTypeKind, bind_some, loadedValue, htwo, map_some,
      narrowInt, ofNat_low v (show 256 ^ 2 = 2 ^ 16 from rfl), reduceCtorEq, if_false]
  | int =>
    simp only [loadStackValue, sizeofTypeKind, bind_some, loadedValue, hfour,
      map_some, narrowInt, ofNat_low v (show 256 ^ 4 = 2 ^ 32 from rfl),
      BitVec.setWidth_eq, reduceCtorEq, if_false]
  | float | double | long | void | reference => cases hkind

theorem narrowInt_boolean {v : BitVec 32} (h : narrowInt .boolean v = v) : v = 0 ∨ v = 1 := by
  have hand : v &&& 1 = v := h
  have hmod : v.toNat % 2 = v.toNat := by
    have htoNat := congrArg BitVec.toNat hand
    rw [BitVec.toNat_and] at htoNat
    rwa [← Nat.and_one_is_mod]
  have hcases : v.toNat = 0 ∨ v.toNat = 1 := by omega
  apply hcases.imp
  · exact fun hzero => BitVec.eq_of_toNat_eq hzero
  · exact fun hone => BitVec.eq_of_toNat_eq hone

theorem loadStackValue_narrow {v : BitVec 32} (hread : read mem loc 4 = encodeNumber 4 v.toNat)
    (hkind : kind.representable = .int) (hv : narrowInt kind v = v) :
    loadStackValue w mem loc kind = some (.int v) := by
  rw [loadStackValue_int hread hkind]
  by_cases hboolean : kind = .boolean
  · rw [if_pos hboolean]
    rw [hboolean] at hv
    rcases narrowInt_boolean hv with rfl | rfl
    · rfl
    · rfl
  · rw [if_neg hboolean, hv]

end TraceJvm
