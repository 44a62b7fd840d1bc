import TraceJvm.CellMachine
import TraceJvm.FieldMemory

/-! The ways to read and write a field: the interpreter and `store_stack_value` use the width of
`repr_kind`, the natives of `Unsafe` that of the declared type. Addresses are relative to the object
or to the static area. -/
namespace TraceJvm

open ByteMemory MemByte List Option

def writtenKind : InsnKind → Option TypeKind
  | .putstaticB | .putfieldB | .putstaticZ | .putfieldZ => some .byte
  | .putstaticC | .putfieldC => some .char
  | .putstaticS | .putfieldS => some .short
  | .putstaticI | .putfieldI => some .int
  | .putstaticJ | .putfieldJ => some .long
  | .putstaticF | .putfieldF => some .float
  | .putstaticD | .putfieldD => some .double
  | .putstaticL | .putfieldL => some .reference
  | _ => none

/-- `get*_impl` for a resolved get -/
def getHandler (w : PointerWidth) (mem : CellMemory) (loc : ℕ) (insn : InsnKind) :
    Option FieldValue :=
  (accessKind insn).bind (loadStackValue w mem loc)

/-- `put*_impl` for a resolved put -/
def putHandler (w : PointerWidth) (mem : CellMemory) (loc : ℕ) (v : FieldValue)
    (insn : InsnKind) : Option CellMemory :=
  (writtenKind insn).bind (storeStackValue w mem loc v)

/-- `Unsafe.put*` for a field of the type; the volatile and ordered forms do the same. There is none
for `char` and `float`. -/
def unsafePut (w : PointerWidth) (mem : CellMemory) (loc : ℕ) (v : FieldValue) :
    TypeKind → Option CellMemory
  | .char | .float | .void => none
  | kind => storeStackValue w mem loc v kind

/-- `Unsafe.get*` for a field of the type; `getBoolean` converts to `bool`. -/
def unsafeGet (w : PointerWidth) (mem : CellMemory) (loc : ℕ) : TypeKind → Option FieldValue
  | .boolean => (decodeNumber (read mem loc 1)).map fun n => .int (if n = 0 then 0 else 1)
  | .char | .float | .void => none
  | kind => loadStackValue w mem loc kind

inductive FieldPath where
  /-- `getfield`, `putfield`, `getstatic` and `putstatic` -/
  | interpreter
  /-- `load_stack_value` and `store_stack_value` -/
  | stackValue
  | unsafeNative
  deriving DecidableEq

structure AccessedField where
  descriptor : FieldDescriptor
  isStatic : Bool
  loc : ℕ

def AccessedField.resolvedKind (f : AccessedField) (put : Bool) : Option InsnKind :=
  if f.isStatic then getstaticPutstaticResolvedKind put f.descriptor.reprKind
  else getfieldPutfieldResolvedKind put f.descriptor.reprKind

structure FieldWrite where
  path : FieldPath
  value : FieldValue

def readField (w : PointerWidth) (f : AccessedField) (mem : CellMemory) :
    FieldPath → Option FieldValue
  | .interpreter => (f.resolvedKind false).bind (getHandler w mem f.loc)
  | .stackValue => loadStackValue w mem f.loc f.descriptor.reprKind
  | .unsafeNative => unsafeGet w mem f.loc f.descriptor.declaredKind

def writeField (w : PointerWidth) (f : AccessedField) (mem : CellMemory) (x : FieldWrite) :
    Option CellMemory :=
  match x.path with
  | .interpreter => (f.resolvedKind true).bind (putHandler w mem f.loc x.value)
  | .stackValue => storeStackValue w mem f.loc x.value f.descriptor.reprKind
  | .unsafeNative => unsafePut w mem f.loc x.value f.descriptor.declaredKind

def writeFields (w : PointerWidth) (f : AccessedField) (mem : CellMemory) :
    List FieldWrite → Option CellMemory
  | [] => some mem
  | x :: xs => (writeField w f mem x).bind fun mem => writeFields w f mem xs

/-! ### What the accesses have to do -/

def FieldPath.Available (path : FieldPath) (kind : TypeKind) : Prop :=
  path = .unsafeNative → kind ≠ .char ∧ kind ≠ .float

/-- Verified code passes a value of the kind on the stack to an operation that there is. -/
def FieldWrite.Verified (x : FieldWrite) (d : FieldDescriptor) : Prop :=
  x.value.kind = d.reprKind ∧ x.path.Available d.declaredKind

inductive FieldArea (w : PointerWidth) (objHeader : ℕ) : List PlacedField → Prop where
  | object {cs : List ClassFields} {ls : List FieldLayout} :
      linkChain w objHeader cs = some ls → FieldArea w objHeader (instanceFields w cs ls)
  | static {c : ClassFields} {l : FieldLayout} {supers : List ClassFields}
      {layouts : List FieldLayout} : linkChain w objHeader (c :: supers) = some (l :: layouts) →
      FieldArea w objHeader (ownFields w c l true)

def lastWritten (d : FieldDescriptor) (writes : List FieldWrite) : FieldValue :=
  (writes.getLast?.map FieldWrite.value).getD (.zero d.reprKind)

/-- All reads give the last value, narrowed to the declared type, and the other fields of the area
are as before. -/
def AccessRight (w : PointerWidth) (area : List PlacedField) (n : ℕ) (f : AccessedField)
    (before : CellMemory) (writes : List FieldWrite) : Prop :=
  ∃ mem, writeFields w f before writes = some mem ∧
    (∀ path : FieldPath, path.Available f.descriptor.declaredKind →
      readField w f mem path =
        some ((lastWritten f.descriptor writes).narrow f.descriptor.declaredKind)) ∧
    ∀ m g, m ≠ n → area[m]? = some g →
      read mem g.offset g.bytes = read before g.offset g.bytes

/-- The last `int` that was written, and the last one that was not written by `Unsafe`. -/
def lastInt (writes : List FieldWrite) : BitVec 32 :=
  match writes.getLast? with
  | some ⟨_, .int v⟩ => v
  | _ => 0

def lastWide (writes : List FieldWrite) : BitVec 32 :=
  lastInt (writes.filter fun x => x.path ≠ .unsafeNative)

/-- The bytes at which `Unsafe` accesses a field that is an `int` on the stack. -/
def declaredBytes : TypeKind → ℕ
  | .boolean | .byte => 1
  | .char | .short => 2
  | _ => 4

/-- Narrowing keeps the low bytes of the last value, and the bytes above are those of the
last value that was not written by `Unsafe`. -/
def AccessMeets (d : FieldDescriptor) (writes : List FieldWrite) : Prop :=
  d.reprKind = .int →
    let v := narrowInt d.declaredKind (lastInt writes)
    let unit := 256 ^ declaredBytes d.declaredKind
    v.toNat % unit = (lastInt writes).toNat % unit ∧
      v.toNat / unit = (lastWide writes).toNat / unit

/-! ### One write -/

def FieldWrite.cells (w : PointerWidth) (d : FieldDescriptor) (x : FieldWrite) : List (MemByte ℕ) :=
  if x.path = .unsafeNative then (x.value.cells w).take ((sizeofTypeKind w d.declaredKind).getD 0)
  else x.value.cells w

section

variable {w : PointerWidth} {f : AccessedField} {mem before : CellMemory} {x : FieldWrite}
  {xs writes : List FieldWrite} {d : FieldDescriptor} {n : ℕ} {v : FieldValue}

theorem FieldValue.kind_cases (v : FieldValue) : v.kind = .int ∨ v.kind = .long ∨
    v.kind = .float ∨ v.kind = .double ∨ v.kind = .reference := by
  cases v <;> simp [kind]

theorem resolvedKind_spec (h : v.kind = f.descriptor.reprKind) :
    (f.resolvedKind true).bind writtenKind = some v.kind ∧
      (f.resolvedKind false).bind accessKind = some v.kind := by
  unfold AccessedField.resolvedKind
  rw [← h]
  rcases v.kind_cases with hk | hk | hk | hk | hk <;> rw [hk] <;> cases f.isStatic <;>
    exact ⟨rfl, rfl⟩

theorem storeStackValue_kind (w : PointerWidth) (mem : CellMemory) (loc : ℕ) (v : FieldValue) :
    storeStackValue w mem loc v v.kind = some (write mem loc (v.cells w)) := by
  unfold storeStackValue
  rw [storedCells_kind]
  rfl

theorem unsafePut_eq (hkind : v.kind = d.reprKind)
    (h : FieldPath.unsafeNative.Available d.declaredKind) : unsafePut w mem n v d.declaredKind =
      some (write mem n ((v.cells w).take ((sizeofTypeKind w d.declaredKind).getD 0))) := by
  rw [d.reprKind_eq] at hkind
  obtain ⟨hchar, hfloat⟩ := h rfl
  cases hd : d.declaredKind with
  | char => exact absurd hd hchar
  | float => exact absurd hd hfloat
  | void =>
    rw [hd] at hkind
    rcases v.kind_cases with hk | hk | hk | hk | hk <;> rw [hk] at hkind <;> cases hkind
  | boolean | byte | short | int | long | double | reference =>
    rw [hd] at hkind
    cases v <;> simp only [FieldValue.kind, TypeKind.representable, reduceCtorEq] at hkind
    all_goals simp [unsafePut, storeStackValue, storedCells, FieldValue.kind, FieldValue.cells,
      sizeofTypeKind, take_encodeNumber, take_of_length_le]

theorem writeField_eq (hx : x.Verified f.descriptor) :
    writeField w f mem x = some (write mem f.loc (x.cells w f.descriptor)) := by
  obtain ⟨hkind, havailable⟩ := hx
  unfold writeField FieldWrite.cells
  cases hpath : x.path with
  | interpreter =>
    obtain ⟨insn, hinsn, hwritten⟩ := bind_eq_some_iff.mp (resolvedKind_spec hkind).1
    show (f.resolvedKind true).bind (putHandler w mem f.loc x.value) = _
    rw [hinsn, bind_some, putHandler, hwritten, bind_some, storeStackValue_kind]
    rfl
  | stackValue =>
    show storeStackValue w mem f.loc x.value f.descriptor.reprKind = _
    rw [← hkind, storeStackValue_kind]
    rfl
  | unsafeNative =>
    rw [hpath] at havailable
    exact unsafePut_eq hkind havailable

def writtenMemory (w : PointerWidth) (f : AccessedField) (before : CellMemory)
    (writes : List FieldWrite) : CellMemory :=
  writeAll before (writes.map fun x => (f.loc, x.cells w f.descriptor))

theorem writeFields_eq (h : ∀ x ∈ writes, x.Verified f.descriptor) :
    writeFields w f before writes = some (writtenMemory w f before writes) := by
  induction writes generalizing before with
  | nil => rfl
  | cons x xs ih =>
    rw [writeFields, writeField_eq (h x mem_cons_self), bind_some,
      ih fun y hy => h y (mem_cons_of_mem x hy)]
    rfl

theorem writtenMemory_concat : writtenMemory w f before (xs ++ [x]) =
    write (writtenMemory w f before xs) f.loc (x.cells w f.descriptor) := by
  unfold writtenMemory
  rw [map_append]
  exact writeAll_concat _ _ _

theorem FieldWrite.length_cells_le (h : x.value.kind = d.reprKind)
    (hn : sizeofTypeKind w d.reprKind = some n) : (x.cells w d).length ≤ n := by
  have hsize := x.value.sizeof_kind w
  rw [h, hn] at hsize
  have hlen : n = (x.value.cells w).length := some.inj hsize
  unfold cells
  split
  · rw [length_take]
    omega
  · omega

theorem read_writtenMemory_apart {off k : ℕ} (h : ∀ x ∈ writes, x.Verified f.descriptor)
    (hn : sizeofTypeKind w f.descriptor.reprKind = some n) (happart : Apart f.loc n off k) :
    read (writtenMemory w f before writes) off k = read before off k := by
  apply read_writeAll_apart
  intro s hs
  obtain ⟨x, hx, rfl⟩ := mem_map.mp hs
  have hlen := FieldWrite.length_cells_le (h x hx).1 hn
  unfold Apart at happart ⊢
  dsimp only
  omega

/-! ### Fields of the other types -/

theorem declaredKind_of_reprKind (h : d.reprKind ≠ .int) : d.declaredKind = d.reprKind := by
  rw [d.reprKind_eq] at h ⊢
  cases hd : d.declaredKind <;> rw [hd] at h <;> first | rfl | exact absurd rfl h

theorem lastWritten_concat : lastWritten d (xs ++ [x]) = x.value := by
  unfold lastWritten
  rw [getLast?_concat]
  rfl

theorem lastWritten_kind (h : ∀ x ∈ writes, x.Verified d)
    (hn : sizeofTypeKind w d.reprKind = some n) :
    (lastWritten d writes).kind = d.reprKind := by
  induction writes using List.reverseRecOn with
  | nil =>
    show (FieldValue.zero d.reprKind).kind = d.reprKind
    rw [d.reprKind_eq] at hn ⊢
    apply FieldValue.zero_kind
    intro hvoid
    rw [hvoid] at hn
    cases hn
  | append_singleton xs x _ =>
    rw [lastWritten_concat]
    exact (h x (mem_append_right xs mem_cons_self)).1

/-- The slot holds the last value. -/
theorem read_writtenMemory (h : ∀ x ∈ writes, x.Verified f.descriptor)
    (hint : f.descriptor.reprKind ≠ .int) (hn : sizeofTypeKind w f.descriptor.reprKind = some n)
    (hzero : read before f.loc n = List.replicate n (byte 0)) :
    read (writtenMemory w f before writes) f.loc n = (lastWritten f.descriptor writes).cells w := by
  have hkind := lastWritten_kind h hn
  have hsize := (lastWritten f.descriptor writes).sizeof_kind w
  rw [hkind, hn] at hsize
  have hlen : n = ((lastWritten f.descriptor writes).cells w).length := some.inj hsize
  induction writes using List.reverseRecOn with
  | nil =>
    show read before f.loc n = (FieldValue.zero f.descriptor.reprKind).cells w
    rw [hzero, FieldValue.cells_zero, hlen]
    rfl
  | append_singleton xs x _ =>
    rw [lastWritten_concat] at hlen ⊢
    have hcells : x.cells w f.descriptor = x.value.cells w := by
      unfold FieldWrite.cells
      rw [declaredKind_of_reprKind hint, hn, getD_some, hlen, take_length, ite_self]
    rw [writtenMemory_concat, hcells, hlen, read_write_self]

theorem readField_interpreter (hkind : v.kind = f.descriptor.reprKind)
    (hload : loadStackValue w mem f.loc f.descriptor.reprKind = some v) :
    readField w f mem .interpreter = some v := by
  obtain ⟨insn, hinsn, haccess⟩ := bind_eq_some_iff.mp (resolvedKind_spec hkind).2
  show (f.resolvedKind false).bind (getHandler w mem f.loc) = _
  rw [hinsn, bind_some, getHandler, haccess, bind_some, hkind, hload]

/-- All paths read the last value. -/
theorem readField_wide (h : ∀ x ∈ writes, x.Verified f.descriptor)
    (hint : f.descriptor.reprKind ≠ .int) (hn : sizeofTypeKind w f.descriptor.reprKind = some n)
    (hread : read mem f.loc n = (lastWritten f.descriptor writes).cells w) (path : FieldPath)
    (hpath : path.Available f.descriptor.declaredKind) : readField w f mem path =
      some ((lastWritten f.descriptor writes).narrow f.descriptor.declaredKind) := by
  have hkind := lastWritten_kind h hn
  have hdeclared := declaredKind_of_reprKind hint
  generalize lastWritten f.descriptor writes = v at *
  have hsize := v.sizeof_kind w
  rw [hkind, hn] at hsize
  rw [some.inj hsize] at hread
  have hload : loadStackValue w mem f.loc f.descriptor.reprKind = some v := by
    rw [← hkind]
    exact loadStackValue_of_read hread
  have hnarrow : v.narrow f.descriptor.declaredKind = v := by
    cases v with
    | int i => exact absurd hkind.symm hint
    | long i | float i | double i | reference i => rfl
  rw [hnarrow]
  cases path with
  | interpreter => exact readField_interpreter hkind hload
  | stackValue => exact hload
  | unsafeNative =>
    show unsafeGet w mem f.loc f.descriptor.declaredKind = _
    obtain ⟨hchar, hfloat⟩ := hpath rfl
    rw [hdeclared] at hchar hfloat ⊢
    rw [← hload]
    rcases v.kind_cases with hk | hk | hk | hk | hk <;> rw [hkind] at hk <;> rw [hk]
    · exact absurd hk hint
    · rfl
    · exact absurd hk hfloat
    · rfl
    · rfl

/-! ### Fields that are an `int` on the stack -/

theorem setWidth_signExtend {m : ℕ} (v : BitVec m) (h : m ≤ 32) :
    (v.signExtend 32).setWidth m = v := by
  ext i hi
  have hlt : i < 32 := by omega
  rw [BitVec.getElem_setWidth, BitVec.getLsbD_eq_getElem hlt, BitVec.getElem_signExtend hlt]
  simp [hi]

theorem narrowInt_narrowInt (kind : TypeKind) (v : BitVec 32) :
    narrowInt kind (narrowInt kind v) = narrowInt kind v := by
  cases kind with
  | boolean =>
    show v &&& 1 &&& 1 = v &&& 1
    rw [BitVec.and_assoc, BitVec.and_self]
  | byte =>
    show (((v.setWidth 8).signExtend 32).setWidth 8).signExtend 32 = _
    rw [setWidth_signExtend _ (by omega)]
    rfl
  | short =>
    show (((v.setWidth 16).signExtend 32).setWidth 16).signExtend 32 = _
    rw [setWidth_signExtend _ (by omega)]
    rfl
  | char =>
    show (((v.setWidth 16).setWidth 32).setWidth 16).setWidth 32 = _
    rw [BitVec.setWidth_setWidth_of_le _ (show 16 ≤ 32 by omega)]
    rfl
  | float | double | int | long | void | reference => rfl

/-- The `int` in the slot of a field: its low bytes are those of the last value. -/
structure SlotInt (kind : TypeKind) (mem : CellMemory) (loc : ℕ) (writes : List FieldWrite)
    (v : BitVec 32) : Prop where
  cells : read mem loc 4 = encodeNumber 4 v.toNat
  low : v.toNat % 256 ^ declaredBytes kind = (lastInt writes).toNat % 256 ^ declaredBytes kind
  high : v.toNat / 256 ^ declaredBytes kind = (lastWide writes).toNat / 256 ^ declaredBytes kind

theorem lastInt_concat {v : BitVec 32} (h : x.value = .int v) : lastInt (xs ++ [x]) = v := by
  unfold lastInt
  rw [getLast?_concat]
  obtain ⟨path, value⟩ := x
  obtain rfl : value = .int v := h
  rfl

theorem lastWide_concat {v : BitVec 32} (h : x.value = .int v) : lastWide (xs ++ [x]) =
    if x.path = .unsafeNative then lastWide xs else v := by
  unfold lastWide
  rw [filter_append]
  by_cases hpath : x.path = .unsafeNative
  · rw [if_pos hpath, filter_cons_of_neg (by simp [hpath]), filter_nil, append_nil]
  · rw [if_neg hpath, filter_cons_of_pos (by simp [hpath]), filter_nil, lastInt_concat h]

theorem declaredBytes_le (kind : TypeKind) : declaredBytes kind ≤ 4 := by
  cases kind <;> decide

theorem sizeof_declaredKind (hint : d.reprKind = .int) :
    sizeofTypeKind w d.declaredKind = some (declaredBytes d.declaredKind) := by
  rw [d.reprKind_eq] at hint
  cases hd : d.declaredKind <;> rw [hd] at hint <;> first | rfl | cases hint

theorem cells_unsafeNative {v : BitVec 32} (hint : d.reprKind = .int) (h : x.value = .int v)
    (hpath : x.path = .unsafeNative) :
    x.cells w d = encodeNumber (declaredBytes d.declaredKind) v.toNat := by
  unfold FieldWrite.cells
  rw [if_pos hpath, h, sizeof_declaredKind hint, getD_some]
  exact take_encodeNumber (declaredBytes_le _)

theorem replaced_lt {b : ℕ} (hb : b ≤ 4) (v y : BitVec 32) :
    v.toNat / 256 ^ b * 256 ^ b + y.toNat % 256 ^ b < 2 ^ 32 := by
  have hpos : 0 < 256 ^ b := Nat.pow_pos (by omega)
  have hsplit : 256 ^ b * 256 ^ (4 - b) = 2 ^ 32 := by
    rw [← Nat.pow_add, Nat.add_sub_cancel' hb]
    rfl
  have hquotient : v.toNat / 256 ^ b < 256 ^ (4 - b) := by
    apply Nat.div_lt_of_lt_mul
    rw [hsplit]
    exact v.isLt
  calc v.toNat / 256 ^ b * 256 ^ b + y.toNat % 256 ^ b
      < v.toNat / 256 ^ b * 256 ^ b + 256 ^ b := Nat.add_lt_add_left (Nat.mod_lt _ hpos) _
    _ = (v.toNat / 256 ^ b + 1) * 256 ^ b := (Nat.succ_mul _ _).symm
    _ ≤ 256 ^ (4 - b) * 256 ^ b := Nat.mul_le_mul_right _ hquotient
    _ = 2 ^ 32 := by rw [Nat.mul_comm, hsplit]

/-- One write to a slot that holds an `int`. -/
theorem SlotInt.concat {v y : BitVec 32} (h : SlotInt d.declaredKind mem n xs v)
    (hint : d.reprKind = .int) (hx : x.value = .int y) :
    ∃ v, SlotInt d.declaredKind (write mem n (x.cells w d)) n (xs ++ [x]) v := by
  by_cases hpath : x.path = .unsafeNative
  · have hbytes := declaredBytes_le d.declaredKind
    rw [cells_unsafeNative hint hx hpath]
    obtain ⟨hcells, hlow, hhigh⟩ := h
    generalize hb : declaredBytes d.declaredKind = b at *
    have hpos : 0 < 256 ^ b := Nat.pow_pos (by omega)
    obtain ⟨hmod, hdiv⟩ := low_high (v.toNat / 256 ^ b) (Nat.mod_lt y.toNat hpos)
    have hsum : 4 = b + (4 - b) := by omega
    have hlt := replaced_lt hbytes v y
    rw [hsum] at hcells
    have hread := read_write_low hcells y.toNat
    rw [← hsum] at hread
    refine ⟨BitVec.ofNat 32 (v.toNat / 256 ^ b * 256 ^ b + y.toNat % 256 ^ b), ?_, ?_, ?_⟩
    all_goals rw [BitVec.toNat_ofNat, Nat.mod_eq_of_lt hlt]
    · exact hread
    · rw [hb, hmod, lastInt_concat hx]
    · rw [hb, hdiv, lastWide_concat hx, if_pos hpath, hhigh]
  · have hcells : x.cells w d = encodeNumber 4 y.toNat := by
      unfold FieldWrite.cells
      rw [if_neg hpath, hx]
      rfl
    refine ⟨y, ?_, ?_, ?_⟩
    · have hself : read (write mem n (x.cells w d)) n (x.cells w d).length = x.cells w d :=
        read_write_self
      rw [hcells, length_encodeNumber] at hself
      rw [hcells, hself]
    · rw [lastInt_concat hx]
    · rw [lastWide_concat hx, if_neg hpath]

theorem exists_slotInt (h : ∀ x ∈ writes, x.Verified f.descriptor)
    (hint : f.descriptor.reprKind = .int)
    (hzero : read before f.loc 4 = List.replicate 4 (byte 0)) : ∃ v,
      SlotInt f.descriptor.declaredKind (writtenMemory w f before writes) f.loc writes v := by
  induction writes using List.reverseRecOn with
  | nil => exact ⟨0, hzero, rfl, rfl⟩
  | append_singleton xs x ih =>
    obtain ⟨v, hv⟩ := ih fun y hy => h y (mem_append_left [x] hy)
    have hkind := (h x (mem_append_right xs mem_cons_self)).1
    rw [writtenMemory_concat]
    cases hx : x.value with
    | int y => exact hv.concat hint hx
    | long y | float y | double y | reference y =>
      rw [hx, hint] at hkind
      cases hkind

theorem lastWritten_int (h : ∀ x ∈ writes, x.Verified d) (hint : d.reprKind = .int) :
    lastWritten d writes = .int (lastInt writes) := by
  induction writes using List.reverseRecOn with
  | nil =>
    show FieldValue.zero d.reprKind = .int 0
    rw [hint]
    rfl
  | append_singleton xs x _ =>
    have hkind := (h x (mem_append_right xs mem_cons_self)).1
    rw [lastWritten_concat]
    cases hx : x.value with
    | int y => rw [lastInt_concat hx]
    | long y | float y | double y | reference y =>
      rw [hx, hint] at hkind
      cases hkind

theorem slotInt_eq_iff {kind : TypeKind} {v y : BitVec 32} (h : SlotInt kind mem n writes v) :
    v = y ↔ y.toNat % 256 ^ declaredBytes kind =
        (lastInt writes).toNat % 256 ^ declaredBytes kind ∧
      y.toNat / 256 ^ declaredBytes kind =
        (lastWide writes).toNat / 256 ^ declaredBytes kind := by
  rw [← h.low, ← h.high]
  constructor
  · rintro rfl
    exact ⟨rfl, rfl⟩
  · intro ⟨hmod, hdiv⟩
    apply BitVec.eq_of_toNat_eq
    rw [← Nat.div_add_mod v.toNat (256 ^ declaredBytes kind), ← hmod, ← hdiv, Nat.div_add_mod]

/-- A slot that holds a value of the declared type is read alike by all paths. -/
theorem readField_narrow {v : BitVec 32} (hint : f.descriptor.reprKind = .int)
    (hread : read mem f.loc 4 = encodeNumber 4 v.toNat)
    (hv : narrowInt f.descriptor.declaredKind v = v) (path : FieldPath)
    (hpath : path.Available f.descriptor.declaredKind) :
    readField w f mem path = some (.int v) := by
  have hload : loadStackValue w mem f.loc f.descriptor.reprKind = some (.int v) := by
    rw [hint]
    exact loadStackValue_narrow hread rfl rfl
  have hkind : (FieldValue.int v).kind = f.descriptor.reprKind := hint.symm
  cases path with
  | interpreter => exact readField_interpreter hkind hload
  | stackValue => exact hload
  | unsafeNative =>
    show unsafeGet w mem f.loc f.descriptor.declaredKind = _
    obtain ⟨hchar, -⟩ := hpath rfl
    rw [f.descriptor.reprKind_eq] at hint
    have hnarrow := loadStackValue_narrow (w := w) hread hint hv
    have hlow := decodeNumber_low hread (show 1 ≤ 4 by omega)
    cases hd : f.descriptor.declaredKind with
    | boolean =>
      rw [hd] at hv
      show (decodeNumber (read mem f.loc 1)).map _ = _
      rw [hlow]
      rcases narrowInt_boolean hv with rfl | rfl
      · rfl
      · rfl
    | char => exact absurd hd hchar
    | byte | short | int =>
      rw [hd] at hnarrow
      exact hnarrow
    | float | double | long | void | reference =>
      rw [hd] at hint
      cases hint

/-! ### The areas -/

theorem ownFields_size {c : ClassFields} {base : ℕ} {l : FieldLayout} (h : LaidOut w c base l)
    {isStatic : Bool} : ∀ p ∈ ownFields w c l isStatic, sizeofTypeKind w p.kind = some p.bytes := by
  intro p hp
  obtain ⟨i, g, m, -, -, hm, rfl⟩ := h.mem_ownFields.mp hp
  exact hm

theorem instanceFields_size {objHeader : ℕ} {cs : List ClassFields} {ls : List FieldLayout}
    (h : linkChain w objHeader cs = some ls) :
    ∀ p ∈ instanceFields w cs ls, sizeofTypeKind w p.kind = some p.bytes := by
  induction cs generalizing ls with
  | nil =>
    cases h
    exact fun p hp => absurd hp not_mem_nil
  | cons c supers ih =>
    simp only [linkChain, bind_eq_some_iff, map_eq_some_iff] at h
    obtain ⟨layouts, hsupers, l, hl, rfl⟩ := h
    intro p hp
    rcases mem_append.mp hp with hp | hp
    · exact ih hsupers p hp
    · exact ownFields_size (linkFields_laidOut hl).1 p hp

theorem FieldArea.spec {objHeader : ℕ} {area : List PlacedField} (h : FieldArea w objHeader area) :
    area.Pairwise PlacedField.Disjoint ∧
      ∀ p ∈ area, sizeofTypeKind w p.kind = some p.bytes := by
  cases h with
  | object hlink => exact ⟨(linkChain_laidOut hlink).placed.disjoint, instanceFields_size hlink⟩
  | static hlink =>
    simp only [linkChain, bind_eq_some_iff, map_eq_some_iff, cons.injEq] at hlink
    obtain ⟨_, _, l', hl, rfl, _⟩ := hlink
    have hlaid := (linkFields_laidOut hl).1
    exact ⟨(hlaid.wellPlaced true).disjoint, ownFields_size hlaid⟩

theorem PlacedField.Disjoint.symm {a b : PlacedField} (h : a.Disjoint b) : b.Disjoint a := Or.symm h

theorem FieldArea.apart {objHeader : ℕ} {area : List PlacedField} (h : FieldArea w objHeader area)
    {i k : ℕ} {p q : PlacedField} (hp : area[i]? = some p) (hq : area[k]? = some q) (hne : k ≠ i) :
    Apart p.offset p.bytes q.offset q.bytes := by
  have hpairwise := pairwise_iff_getElem.mp h.spec.1
  obtain ⟨hi, rfl⟩ := List.getElem?_eq_some_iff.mp hp
  obtain ⟨hk, rfl⟩ := List.getElem?_eq_some_iff.mp hq
  rcases Nat.lt_or_gt_of_ne hne with hlt | hgt
  · exact (hpairwise k i hk hi hlt).symm
  · exact hpairwise i k hi hk hgt

/-- All ways to read a field give the last value that was written, narrowed to the declared type,
and its neighbours stay as they are, if and only if the writes meet the condition. -/
theorem field_access_right_iff {objHeader : ℕ} {area : List PlacedField}
    (harea : FieldArea w objHeader area) {place : PlacedField} (hplace : area[n]? = some place)
    (hloc : f.loc = place.offset) (hkind : f.descriptor.reprKind = place.kind)
    (hzero : read before place.offset place.bytes = List.replicate place.bytes (byte 0))
    (hwrites : ∀ x ∈ writes, x.Verified f.descriptor) :
    AccessRight w area n f before writes ↔ AccessMeets f.descriptor writes := by
  have hn : sizeofTypeKind w f.descriptor.reprKind = some place.bytes := by
    rw [hkind]
    exact harea.spec.2 place (mem_of_getElem? hplace)
  have hrun : writeFields w f before writes = some (writtenMemory w f before writes) :=
    writeFields_eq hwrites
  have hframe : ∀ m g, m ≠ n → area[m]? = some g →
      read (writtenMemory w f before writes) g.offset g.bytes = read before g.offset g.bytes := by
    intro m g hne hg
    apply read_writtenMemory_apart hwrites hn
    rw [hloc]
    exact harea.apart hplace hg hne
  rw [← hloc] at hzero
  by_cases hint : f.descriptor.reprKind = .int
  · rw [hint] at hn
    rw [← some.inj hn] at hzero
    obtain ⟨v, hv⟩ := exists_slotInt hwrites hint hzero
    have hlast := lastWritten_int hwrites hint
    have hiff : AccessMeets f.descriptor writes ↔
        v = narrowInt f.descriptor.declaredKind (lastInt writes) := by
      rw [slotInt_eq_iff hv]
      exact ⟨fun h => h hint, fun h _ => h⟩
    rw [hiff]
    constructor
    · intro ⟨mem, hmem, hreads, _⟩
      rw [hrun] at hmem
      have hread := hreads .stackValue nofun
      rw [← some.inj hmem, hlast] at hread
      have hload : loadStackValue w (writtenMemory w f before writes) f.loc
          f.descriptor.reprKind = some (.int v) := by
        rw [hint]
        exact loadStackValue_narrow hv.cells rfl rfl
      exact FieldValue.int.inj (some.inj (hload.symm.trans hread))
    · intro heq
      refine ⟨_, hrun, ?_, hframe⟩
      intro path hpath
      rw [hlast]
      show _ = some (FieldValue.int (narrowInt f.descriptor.declaredKind (lastInt writes)))
      rw [← heq]
      apply readField_narrow hint hv.cells _ path hpath
      rw [heq, narrowInt_narrowInt]
  · constructor
    · intro _ h
      exact absurd h hint
    · intro _
      refine ⟨_, hrun, ?_, hframe⟩
      exact readField_wide hwrites hint hn (read_writtenMemory hwrites hint hn hzero)

end

/-- A class with a `byte` and an `int`. -/
def byteAndInt : ClassFields := ⟨[⟨.ofKind .byte, false⟩, ⟨.ofKind .int, false⟩], none⟩

def byteField : AccessedField := ⟨.ofKind .byte, false, 16⟩

theorem byteAndInt_area :
    ∃ area, FieldArea .bits64 16 area ∧ area[0]? = some ⟨.int, 16, 4⟩ := by
  obtain ⟨l, hl⟩ := linkFields_isSome (w := .bits64) (c := byteAndInt) (by decide) 16 none
  have hlink : linkChain .bits64 16 [byteAndInt] = some [l] := by
    simp only [linkChain, bind_some, head?_nil, hl, map_some]
  refine ⟨_, .object hlink, ?_⟩
  cases hl
  rfl

/-- A `byte` after two writes by the interpreter. -/
theorem byte_reads_back : ∃ area, FieldArea .bits64 16 area ∧
    area[0]? = some ⟨.int, 16, 4⟩ ∧ AccessRight .bits64 area 0 byteField (fun _ => byte 0)
      [⟨.interpreter, .int 300⟩, ⟨.interpreter, .int (-5)⟩] := by
  obtain ⟨area, harea, hplace⟩ := byteAndInt_area
  refine ⟨area, harea, hplace, ?_⟩
  apply (field_access_right_iff harea hplace rfl rfl rfl _).mpr
  · exact fun _ => by decide
  · intro x hx
    rcases mem_cons.mp hx with rfl | hx
    · exact ⟨rfl, nofun⟩
    · rw [mem_singleton.mp hx]
      exact ⟨rfl, nofun⟩

/-- `Unsafe.putByte` leaves three bytes of the `int` that `putfield` has stored. -/
theorem byte_mixed_writes : ∃ area, FieldArea .bits64 16 area ∧
    area[0]? = some ⟨.int, 16, 4⟩ ∧ ¬ AccessRight .bits64 area 0 byteField (fun _ => byte 0)
      [⟨.interpreter, .int (-1)⟩, ⟨.unsafeNative, .int 0⟩] := by
  obtain ⟨area, harea, hplace⟩ := byteAndInt_area
  refine ⟨area, harea, hplace, ?_⟩
  intro ⟨mem, hmem, hreads, _⟩
  cases hmem
  have hread := hreads .interpreter nofun
  revert hread
  decide

end TraceJvm
