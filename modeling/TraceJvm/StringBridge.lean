import Mathlib.Data.List.Basic
import Mathlib.Tactic.IntervalCases

/-! Strings between JavaScript and Java: `createString` on the way in, the string branch of
`createHandle` on the way out. -/
namespace TraceJvm

open List

abbrev JsString := List UInt16

/-! ### The encodings of the host -/

def isLeadSurrogate (u : UInt16) : Bool := 0xD800 ≤ u && u ≤ 0xDBFF

def isTrailSurrogate (u : UInt16) : Bool := 0xDC00 ≤ u && u ≤ 0xDFFF

def loneUnit (u : UInt16) : ℕ :=
  if isLeadSurrogate u || isTrailSurrogate u then 0xFFFD else u.toNat

def scalarValues : JsString → List ℕ
  | [] => []
  | [u] => [loneUnit u]
  | u :: v :: rest =>
    if isLeadSurrogate u && isTrailSurrogate v then
      (0x10000 + (u.toNat - 0xD800) * 0x400 + (v.toNat - 0xDC00)) :: scalarValues rest
    else loneUnit u :: scalarValues (v :: rest)

def utf8Bytes (c : ℕ) : List UInt8 :=
  if c ≤ 0x7F then [UInt8.ofNat c]
  else if c ≤ 0x7FF then [UInt8.ofNat (0xC0 + c / 0x40), UInt8.ofNat (0x80 + c % 0x40)]
  else if c ≤ 0xFFFF then
    [UInt8.ofNat (0xE0 + c / 0x1000), UInt8.ofNat (0x80 + c / 0x40 % 0x40),
      UInt8.ofNat (0x80 + c % 0x40)]
  else
    [UInt8.ofNat (0xF0 + c / 0x40000), UInt8.ofNat (0x80 + c / 0x1000 % 0x40),
      UInt8.ofNat (0x80 + c / 0x40 % 0x40), UInt8.ofNat (0x80 + c % 0x40)]

/-- `encodeInto` of a destination of `room` bytes stops before the first scalar value that does not
fit. -/
def encodeScalars : List ℕ → ℕ → List UInt8
  | [], _ => []
  | c :: rest, room =>
    if (utf8Bytes c).length ≤ room then
      utf8Bytes c ++ encodeScalars rest (room - (utf8Bytes c).length)
    else []

/-- `new TextEncoder().encodeInto(str, arr)` -/
def encodeInto (str : JsString) (room : ℕ) : List UInt8 := encodeScalars (scalarValues str) room

def utf16Units (c : ℕ) : JsString :=
  if c < 0x10000 then [UInt16.ofNat c]
  else [UInt16.ofNat (0xD800 + (c - 0x10000) / 0x400), UInt16.ofNat (0xDC00 + (c - 0x10000) % 0x400)]

/-- The code units that a little-endian byte sequence holds, and whether a byte is left over. -/
def littleEndianUnits : List UInt8 → JsString × Bool
  | [] => ([], false)
  | [_] => ([], true)
  | lo :: hi :: rest =>
    ((lo.toUInt16 ||| hi.toUInt16 <<< 8) :: (littleEndianUnits rest).1, (littleEndianUnits rest).2)

/-- `new TextDecoder('utf-16').decode(bytes)`: a leading byte order mark is dropped. -/
def decodeUtf16 (bytes : List UInt8) : JsString :=
  let scalars := scalarValues (littleEndianUnits bytes).1 ++
    if (littleEndianUnits bytes).2 then [0xFFFD] else []
  (if scalars.head? = some 0xFEFF then scalars.tail else scalars).flatMap utf16Units

def windows1252 : List UInt16 :=
  [0x20AC, 0x0081, 0x201A, 0x0192, 0x201E, 0x2026, 0x2020, 0x2021,
    0x02C6, 0x2030, 0x0160, 0x2039, 0x0152, 0x008D, 0x017D, 0x008F,
    0x0090, 0x2018, 0x2019, 0x201C, 0x201D, 0x2022, 0x2013, 0x2014,
    0x02DC, 0x2122, 0x0161, 0x203A, 0x0153, 0x009D, 0x017E, 0x0178]

/-- `new TextDecoder('latin1').decode(bytes)`: the label names windows-1252. -/
def decodeLatin1 (bytes : List UInt8) : JsString :=
  bytes.map fun b => if 0x80 ≤ b && b ≤ 0x9F then windows1252.getD (b.toNat - 0x80) 0 else b.toUInt16

/-! ### The strings of the virtual machine -/

inductive StringCoder where
  | latin1
  | utf16
  deriving DecidableEq

/-- An instance of `java/lang/String`. -/
structure JavaString where
  value : List UInt8
  coder : StringCoder
  deriving DecidableEq

def JavaString.chars (s : JavaString) : List UInt16 :=
  match s.coder with
  | .latin1 => s.value.map UInt8.toUInt16
  | .utf16 => (littleEndianUnits s.value).1

/-- The state of the virtual machine that the creation of a string reads. The collector decides
which allocations succeed. -/
structure StringVm where
  /-- An exception is pending on the thread. -/
  currentException : Bool
  /-- `new_object` of the class String succeeds. -/
  grantsObject : Bool
  /-- A byte array of the length can be allocated. -/
  grantsBytes : ℕ → Bool
  internedStrings : List JavaString

def doLatin1 (chars : List UInt16) : Bool := chars.all fun c => c >>> 8 = 0

def convertModifiedUtf8ToChars : List UInt8 → Option (List UInt16)
  | [] => some []
  | byte :: rest =>
    if 0x01 ≤ byte && byte ≤ 0x7F then
      (convertModifiedUtf8ToChars rest).map (byte.toUInt16 :: ·)
    else if byte &&& 0xE0 = 0xC0 then
      match rest with
      | b₁ :: rest =>
        (convertModifiedUtf8ToChars rest).map
          (((byte.toUInt16 &&& 0x1F) <<< 6 ||| (b₁.toUInt16 &&& 0x3F)) :: ·)
      | [] => none
    else if byte &&& 0xF0 = 0xE0 then
      match rest with
      | b₁ :: b₂ :: rest =>
        (convertModifiedUtf8ToChars rest).map
          (((byte.toUInt16 &&& 0x0F) <<< 12 ||| (b₁.toUInt16 &&& 0x3F) <<< 6 |||
            (b₂.toUInt16 &&& 0x3F)) :: ·)
      | _ => none
    else if byte = 0 then some []
    else none

namespace StringVm

/-- The new string; `none` with an exception if the memory does not suffice, and `none` without
one if the bytes are not modified UTF-8. -/
def makeJstringModifiedUtf8 (vm : StringVm) (string : List UInt8) : Option JavaString × Bool :=
  if !vm.grantsObject then (none, true)
  else
    match convertModifiedUtf8ToChars string with
    | none => (none, false)
    | some chars =>
      if doLatin1 chars then
        if vm.grantsBytes chars.length then (some ⟨chars.map UInt16.toUInt8, .latin1⟩, false)
        else (none, true)
      else if vm.grantsBytes (2 * chars.length) then
        (some ⟨chars.flatMap fun c : UInt16 => [c.toUInt8, (c >>> 8).toUInt8], .utf16⟩, false)
      else (none, true)

def lookupInternedJstring (vm : StringVm) (s : JavaString) : Option JavaString :=
  vm.internedStrings.find? fun j => j.value = s.value

/-- `ffi_create_string`: `MakeJStringFromModifiedUTF8` without interning. -/
def ffiCreateString (vm : StringVm) (str : List UInt8) : Option JavaString × Bool :=
  match vm.makeJstringModifiedUtf8 str with
  | (none, raised) => (none, raised)
  | (some s, raised) => (some ((vm.lookupInternedJstring s).getD s), raised)

/-- The pointer that `createString` returns; `none` if `throwThreadException` throws. -/
def createString (vm : StringVm) (str : JsString) : Option (Option JavaString) :=
  let made := vm.ffiCreateString (encodeInto str str.length)
  if vm.currentException || made.2 then none else some made.1

end StringVm

/-- `createHandle` of a null pointer or of a string. -/
def createHandle (ptr : Option JavaString) : Option JsString :=
  ptr.map fun s =>
    match s.coder with
    | .latin1 => decodeLatin1 s.value
    | .utf16 => decodeUtf16 s.value

/-- The Java string created from `str` has the code units of `str` as its chars, and a handle reads
`str` back. -/
def StringVm.Lossless (vm : StringVm) (str : JsString) : Prop :=
  ∃ s, vm.createString str = some (some s) ∧ s.chars = str ∧ createHandle (some s) = some str

/-! ### The bytes that `encodeInto` writes -/

theorem encodeScalars_length (cs : List ℕ) (room : ℕ) : (encodeScalars cs room).length ≤ room := by
  induction cs generalizing room with
  | nil => exact Nat.zero_le _
  | cons c cs ih =>
    rw [encodeScalars]
    split
    · have hrest := ih (room - (utf8Bytes c).length)
      rw [length_append]
      omega
    · exact Nat.zero_le _

theorem utf8Bytes_latin1 {c : ℕ} (h : c ≤ 0xFF) : ∀ b ∈ utf8Bytes c, b.toNat < 0xC4 := by
  unfold utf8Bytes
  split
  · simp only [forall_mem_singleton, UInt8.toNat_ofNat']
    omega
  · rw [if_pos (by omega)]
    simp only [forall_mem_cons, not_mem_nil, IsEmpty.forall_iff, implies_true, and_true,
      UInt8.toNat_ofNat']
    omega

theorem encodeScalars_latin1 {cs : List ℕ} (h : ∀ c ∈ cs, c ≤ 0xFF) (room : ℕ) :
    ∀ b ∈ encodeScalars cs room, b.toNat < 0xC4 := by
  induction cs generalizing room with
  | nil => nofun
  | cons c cs ih =>
    obtain ⟨hc, hcs⟩ := forall_mem_cons.mp h
    rw [encodeScalars]
    split
    · intro b hb
      rcases mem_append.mp hb with hb | hb
      · exact utf8Bytes_latin1 hc b hb
      · exact ih hcs _ b hb
    · nofun

theorem loneUnit_latin1 {u : UInt16} (h : u.toNat ≤ 0xFF) : loneUnit u = u.toNat := by
  have hlead : isLeadSurrogate u = false := by
    simp only [isLeadSurrogate, UInt16.le_iff_toNat_le, Bool.and_eq_false_iff, decide_eq_false_iff_not]
    left
    show ¬ 0xD800 ≤ u.toNat
    omega
  have htrail : isTrailSurrogate u = false := by
    simp only [isTrailSurrogate, UInt16.le_iff_toNat_le, Bool.and_eq_false_iff,
      decide_eq_false_iff_not]
    left
    show ¬ 0xDC00 ≤ u.toNat
    omega
  rw [loneUnit, hlead, htrail]
  rfl

theorem scalarValues_latin1 {str : JsString} (h : ∀ u ∈ str, u.toNat ≤ 0xFF) :
    scalarValues str = str.map UInt16.toNat := by
  fun_induction scalarValues str with
  | case1 => rfl
  | case2 u => rw [loneUnit_latin1 (h u (mem_singleton_self u)), map_singleton]
  | case3 u v rest hpair ih =>
    have hu := h u mem_cons_self
    simp only [isLeadSurrogate, UInt16.le_iff_toNat_le, Bool.and_eq_true, decide_eq_true_eq] at hpair
    have hlead : 0xD800 ≤ u.toNat := hpair.1.1
    omega
  | case4 u v rest hpair ih =>
    obtain ⟨hu, hrest⟩ := forall_mem_cons.mp h
    rw [loneUnit_latin1 hu, ih hrest]
    rfl

/-! ### The chars that the bytes stand for -/

def SingleByte (u : UInt16) : Prop := 1 ≤ u.toNat ∧ u.toNat ≤ 0x7F

theorem singleByte_toUInt16 {b : UInt8} (h : (0x01 ≤ b && b ≤ 0x7F) = true) :
    SingleByte b.toUInt16 := by
  simp only [Bool.and_eq_true, decide_eq_true_eq, UInt8.le_iff_toNat_le] at h
  exact h

/-- Every char takes a byte at least, and only the characters of one byte take no more. -/
theorem convertModifiedUtf8ToChars_length {bytes : List UInt8} {chars : List UInt16}
    (h : convertModifiedUtf8ToChars bytes = some chars) :
    chars.length ≤ bytes.length ∧
      (chars.length = bytes.length → ∀ c ∈ chars, SingleByte c) := by
  fun_induction convertModifiedUtf8ToChars bytes generalizing chars with
  | case1 =>
    cases h
    exact ⟨Nat.le_refl _, fun _ => nofun⟩
  | case2 byte rest hone ih =>
    obtain ⟨cs, hcs, rfl⟩ := Option.map_eq_some_iff.mp h
    obtain ⟨hle, hall⟩ := ih hcs
    simp only [length_cons]
    refine ⟨by omega, fun heq => forall_mem_cons.mpr ⟨singleByte_toUInt16 hone, ?_⟩⟩
    exact hall (by omega)
  | case3 byte hone htwo b₁ rest ih | case5 byte hone htwo hthree b₁ b₂ rest ih =>
    obtain ⟨cs, hcs, rfl⟩ := Option.map_eq_some_iff.mp h
    have hle := (ih hcs).1
    simp only [length_cons]
    exact ⟨by omega, fun heq => by omega⟩
  | case4 => cases h
  | case6 => cases h
  | case7 =>
    cases h
    exact ⟨Nat.zero_le _, fun _ => nofun⟩
  | case8 => cases h

theorem doLatin1_cons (c : UInt16) (cs : List UInt16) :
    doLatin1 (c :: cs) = (decide (c >>> 8 = 0) && doLatin1 cs) := rfl

theorem latin1_iff (c : UInt16) : c >>> 8 = 0 ↔ c.toNat ≤ 0xFF := by
  rw [← UInt16.toNat_inj, UInt16.toNat_shiftRight]
  show c.toNat >>> 8 = 0 ↔ _
  rw [Nat.shiftRight_eq_div_pow]
  omega

theorem twoBytes_latin1 {byte : UInt8} (h : byte &&& 0xE0 = 0xC0) (hlow : byte.toNat < 0xC4)
    (b₁ : UInt8) :
    ((byte.toUInt16 &&& 0x1F) <<< 6 ||| (b₁.toUInt16 &&& 0x3F)).toNat ≤ 0xFF := by
  have hand : byte.toNat &&& 0xE0 = 0xC0 := by
    rw [← UInt8.toNat_inj, UInt8.toNat_and] at h
    exact h
  have hhigh : 0xC0 ≤ byte.toNat := by
    rw [← hand]
    exact Nat.and_le_left
  have hlead : (byte.toNat &&& 0x1F) <<< 6 % 2 ^ 16 < 2 ^ 8 := by
    generalize byte.toNat = n at hhigh hlow
    interval_cases n <;> decide
  have htail : b₁.toNat &&& 0x3F < 2 ^ 8 := Nat.and_lt_two_pow _ (by decide)
  have hor := Nat.or_lt_two_pow hlead htail
  rw [UInt16.toNat_or, UInt16.toNat_shiftLeft, UInt16.toNat_and, UInt16.toNat_and]
  exact Nat.le_of_lt_succ hor

theorem convertModifiedUtf8ToChars_latin1 {bytes : List UInt8} {chars : List UInt16}
    (hlow : ∀ b ∈ bytes, b.toNat < 0xC4) (h : convertModifiedUtf8ToChars bytes = some chars) :
    doLatin1 chars = true := by
  fun_induction convertModifiedUtf8ToChars bytes generalizing chars with
  | case1 =>
    cases h
    rfl
  | case2 byte rest hone ih =>
    obtain ⟨cs, hcs, rfl⟩ := Option.map_eq_some_iff.mp h
    obtain ⟨hbyte, hrest⟩ := forall_mem_cons.mp hlow
    have hle : byte.toUInt16.toNat ≤ 0xFF := by
      rw [UInt8.toNat_toUInt16]
      omega
    rw [doLatin1_cons, ih hrest hcs, decide_eq_true ((latin1_iff _).mpr hle)]
    rfl
  | case3 byte hone htwo b₁ rest ih =>
    obtain ⟨cs, hcs, rfl⟩ := Option.map_eq_some_iff.mp h
    simp only [forall_mem_cons] at hlow
    rw [doLatin1_cons, ih hlow.2.2 hcs,
      decide_eq_true ((latin1_iff _).mpr (twoBytes_latin1 htwo hlow.1 b₁))]
    rfl
  | case4 => cases h
  | case5 byte hone htwo hthree b₁ b₂ rest ih =>
    have hand : byte.toNat &&& 0xF0 = 0xE0 := by
      rw [← UInt8.toNat_inj, UInt8.toNat_and] at hthree
      exact hthree
    have hhigh : 0xE0 ≤ byte.toNat := by
      rw [← hand]
      exact Nat.and_le_left
    have hbyte := hlow byte mem_cons_self
    omega
  | case6 => cases h
  | case7 =>
    cases h
    rfl
  | case8 => cases h

/-! ### Strings of single-byte characters -/

section Ascii

variable {str : JsString}

theorem encodeInto_ascii (h : ∀ u ∈ str, SingleByte u) :
    encodeInto str str.length = str.map UInt16.toUInt8 := by
  rw [encodeInto, scalarValues_latin1 fun u hu => by have := (h u hu).2; omega]
  induction str with
  | nil => rfl
  | cons u str ih =>
    obtain ⟨hu, hstr⟩ := forall_mem_cons.mp h
    have hbytes : utf8Bytes u.toNat = [u.toUInt8] := by
      rw [utf8Bytes, if_pos hu.2]
      rfl
    rw [map_cons, encodeScalars, hbytes, length_singleton, length_cons,
      if_pos (Nat.le_add_left 1 _), Nat.add_sub_cancel, ih hstr]
    rfl

theorem toNat_toUInt8 {u : UInt16} (h : SingleByte u) : u.toUInt8.toNat = u.toNat := by
  rw [UInt16.toNat_toUInt8]
  exact Nat.mod_eq_of_lt (Nat.lt_of_le_of_lt h.2 (by decide))

theorem toUInt16_toUInt8 {u : UInt16} (h : SingleByte u) : u.toUInt8.toUInt16 = u := by
  rw [UInt16.toUInt16_toUInt8, ← UInt16.toNat_inj, UInt16.toNat_mod]
  exact Nat.mod_eq_of_lt (Nat.lt_of_le_of_lt h.2 (by decide))

theorem convertModifiedUtf8ToChars_ascii (h : ∀ u ∈ str, SingleByte u) :
    convertModifiedUtf8ToChars (str.map UInt16.toUInt8) = some str := by
  induction str with
  | nil => rfl
  | cons u str ih =>
    obtain ⟨hu, hstr⟩ := forall_mem_cons.mp h
    have hone : (0x01 ≤ u.toUInt8 && u.toUInt8 ≤ 0x7F) = true := by
      simp only [Bool.and_eq_true, decide_eq_true_eq, UInt8.le_iff_toNat_le, toNat_toUInt8 hu]
      exact hu
    rw [map_cons, convertModifiedUtf8ToChars.eq_def]
    dsimp only
    rw [if_pos hone, ih hstr, toUInt16_toUInt8 hu]
    rfl

theorem doLatin1_ascii (h : ∀ u ∈ str, SingleByte u) : doLatin1 str = true := by
  rw [doLatin1, all_eq_true]
  intro u hu
  have hle := (h u hu).2
  exact decide_eq_true ((latin1_iff u).mpr (by omega))

theorem decodeLatin1_ascii (h : ∀ u ∈ str, SingleByte u) :
    decodeLatin1 (str.map UInt16.toUInt8) = str := by
  rw [decodeLatin1, map_map]
  refine (map_congr_left fun u hu => ?_).trans str.map_id
  have hbyte : u.toUInt8.toNat = u.toNat := toNat_toUInt8 (h u hu)
  have hlow := (h u hu).2
  have hnot : (0x80 ≤ u.toUInt8 && u.toUInt8 ≤ 0x9F) = false := by
    simp only [Bool.and_eq_false_iff, decide_eq_false_iff_not, UInt8.le_iff_toNat_le, hbyte]
    left
    show ¬ 0x80 ≤ u.toNat
    omega
  show (if _ then _ else _) = u
  rw [hnot]
  exact toUInt16_toUInt8 (h u hu)

theorem chars_ascii (h : ∀ u ∈ str, SingleByte u) :
    (JavaString.mk (str.map UInt16.toUInt8) .latin1).chars = str := by
  show (str.map UInt16.toUInt8).map UInt8.toUInt16 = str
  rw [map_map]
  exact (map_congr_left fun u hu => toUInt16_toUInt8 (h u hu)).trans str.map_id

end Ascii

/-! ### The round trip -/

theorem littleEndianUnits_length (bytes : List UInt8) :
    (littleEndianUnits bytes).1.length = bytes.length / 2 := by
  fun_induction littleEndianUnits bytes with
  | case1 => rfl
  | case2 b => simp
  | case3 lo hi rest ih =>
    simp only [length_cons, ih]
    omega

namespace StringVm

/-- The string is created on the heap: there is memory for it, and the table of interned strings
holds no UTF-16 string of the same bytes. -/
structure Ready (vm : StringVm) (str : JsString) : Prop where
  quiet : vm.currentException = false
  object : vm.grantsObject = true
  bytes : vm.grantsBytes str.length = true
  interned : ∀ s, vm.internedStrings.find? (fun s => s.value = str.map UInt16.toUInt8) = some s →
    str = [] ∨ s.coder = .latin1

theorem ffiCreateString_ascii {vm : StringVm} {str : JsString} (h : vm.Ready str)
    (hstr : ∀ u ∈ str, SingleByte u) :
    vm.ffiCreateString (str.map UInt16.toUInt8) =
      (some ((vm.lookupInternedJstring ⟨str.map UInt16.toUInt8, .latin1⟩).getD
        ⟨str.map UInt16.toUInt8, .latin1⟩), false) := by
  simp only [ffiCreateString, makeJstringModifiedUtf8, h.object, Bool.not_true,
    Bool.false_eq_true, if_false, convertModifiedUtf8ToChars_ascii hstr, doLatin1_ascii hstr,
    if_true, h.bytes]

variable {vm : StringVm} {str : JsString} {s made : JavaString}

theorem lookupInternedJstring_value (h : vm.lookupInternedJstring made = some s) :
    s.value = made.value := by
  have hfind := find?_some h
  exact of_decide_eq_true hfind

theorem getD_value : ((vm.lookupInternedJstring made).getD made).value = made.value := by
  cases h : vm.lookupInternedJstring made with
  | none => rfl
  | some s => exact lookupInternedJstring_value h

def Makes (vm : StringVm) (bytes : List UInt8) (made : JavaString) : Prop :=
  ∃ chars, convertModifiedUtf8ToChars bytes = some chars ∧
    (doLatin1 chars = true ∧ vm.grantsBytes chars.length = true ∧
        made = ⟨chars.map UInt16.toUInt8, .latin1⟩ ∨
      doLatin1 chars = false ∧
        made = ⟨chars.flatMap fun c : UInt16 => [c.toUInt8, (c >>> 8).toUInt8], .utf16⟩)

theorem makeJstringModifiedUtf8_eq {bytes : List UInt8} {raised : Bool}
    (h : vm.makeJstringModifiedUtf8 bytes = (some made, raised)) :
    vm.grantsObject = true ∧ vm.Makes bytes made := by
  unfold makeJstringModifiedUtf8 at h
  split at h
  · cases h
  · rename_i hobject
    refine ⟨by simpa using hobject, ?_⟩
    split at h
    · cases h
    · rename_i chars hchars
      refine ⟨chars, hchars, ?_⟩
      split at h
      · rename_i hlatin
        split at h
        · rename_i hbytes
          cases h
          exact .inl ⟨hlatin, hbytes, rfl⟩
        · cases h
      · rename_i hlatin
        split at h
        · cases h
          exact .inr ⟨Bool.not_eq_true _ ▸ hlatin, rfl⟩
        · cases h

theorem createString_eq_some (h : vm.createString str = some (some s)) :
    vm.currentException = false ∧ vm.grantsObject = true ∧
      ∃ made, vm.Makes (encodeInto str str.length) made ∧
        s = (vm.lookupInternedJstring made).getD made := by
  unfold createString at h
  dsimp only at h
  split at h
  · cases h
  · rename_i hquiet
    have hmade := Option.some.inj h
    simp only [Bool.or_eq_true, not_or, Bool.not_eq_true] at hquiet
    unfold ffiCreateString at hmade
    split at hmade
    · cases hmade
    · rename_i made raised heq
      obtain ⟨hobject, hmakes⟩ := makeJstringModifiedUtf8_eq heq
      exact ⟨hquiet.1, hobject, made, hmakes, (Option.some.inj hmade).symm⟩

theorem chars_length_of_latin1 {chars : List UInt16} (h : s.value = chars.map UInt16.toUInt8)
    (hcoder : s.coder = .utf16) : s.chars.length = chars.length / 2 := by
  rw [JavaString.chars, hcoder, littleEndianUnits_length, h, length_map]

theorem not_latin1_of_utf16 {chars : List UInt16} (hcoder : s.coder = .latin1)
    (hchars : s.chars = str)
    (hconvert : convertModifiedUtf8ToChars (encodeInto str str.length) = some chars) :
    doLatin1 chars = true := by
  have hlow : ∀ u ∈ str, u.toNat ≤ 0xFF := by
    intro u hu
    rw [← hchars, JavaString.chars, hcoder] at hu
    obtain ⟨b, -, rfl⟩ := mem_map.mp hu
    rw [UInt8.toNat_toUInt16]
    exact Nat.le_of_lt_succ b.toNat_lt
  have hscalars : ∀ c ∈ scalarValues str, c ≤ 0xFF := by
    rw [scalarValues_latin1 hlow]
    intro c hc
    obtain ⟨u, hu, rfl⟩ := mem_map.mp hc
    exact hlow u hu
  exact convertModifiedUtf8ToChars_latin1 (encodeScalars_latin1 hscalars _) hconvert

theorem singleByte_of_converted
    (hconvert : convertModifiedUtf8ToChars (encodeInto str str.length) = some str) :
    ∀ u ∈ str, SingleByte u := by
  have hroom : (encodeInto str str.length).length ≤ str.length := encodeScalars_length _ _
  obtain ⟨hle, hall⟩ := convertModifiedUtf8ToChars_length hconvert
  exact hall (by omega)

theorem chars_of_latin1 {chars : List UInt16} (h : doLatin1 chars = true)
    (hvalue : s.value = chars.map UInt16.toUInt8) (hcoder : s.coder = .latin1) :
    s.chars = chars := by
  rw [JavaString.chars, hcoder]
  show s.value.map UInt8.toUInt16 = chars
  rw [hvalue, map_map]
  refine (map_congr_left fun c hc => ?_).trans chars.map_id
  have hlow := (latin1_iff c).mp (of_decide_eq_true (all_eq_true.mp h c hc))
  show c.toUInt8.toUInt16 = c
  rw [UInt16.toUInt16_toUInt8, ← UInt16.toNat_inj, UInt16.toNat_mod]
  exact Nat.mod_eq_of_lt (Nat.lt_succ_of_le hlow)

theorem littleEndian_unit (c : UInt16) :
    c.toUInt8.toUInt16 ||| (c >>> 8).toUInt8.toUInt16 <<< 8 = c := by
  have hlow : c.toNat % 256 < 2 ^ 8 := Nat.mod_lt _ (by decide)
  have hc := c.toNat_lt
  have hhigh : c.toNat >>> 8 % 256 = c.toNat / 256 := by
    rw [Nat.shiftRight_eq_div_pow]
    omega
  have hshift : (c.toNat / 256) <<< 8 % 2 ^ 16 = (c.toNat / 256) <<< 8 := by
    rw [Nat.shiftLeft_eq]
    omega
  rw [UInt16.toUInt16_toUInt8, UInt16.toUInt16_toUInt8, ← UInt16.toNat_inj, UInt16.toNat_or,
    UInt16.toNat_shiftLeft, UInt16.toNat_mod, UInt16.toNat_mod, UInt16.toNat_shiftRight]
  show c.toNat % 256 ||| (c.toNat >>> 8 % 256) <<< 8 % 2 ^ 16 = c.toNat
  rw [hhigh, hshift, Nat.or_comm, ← Nat.shiftLeft_add_eq_or_of_lt hlow, Nat.shiftLeft_eq]
  omega

theorem littleEndianUnits_flatMap (chars : List UInt16) :
    (littleEndianUnits (chars.flatMap fun c : UInt16 => [c.toUInt8, (c >>> 8).toUInt8])).1 =
      chars := by
  induction chars with
  | nil => rfl
  | cons c chars ih =>
    show _ :: (littleEndianUnits (chars.flatMap _)).1 = c :: chars
    rw [ih, littleEndian_unit]

/-- A string that is created with the right chars is made of single bytes. -/
theorem ready_of_chars (h : vm.createString str = some (some s)) (hchars : s.chars = str) :
    vm.Ready str ∧ ∀ u ∈ str, SingleByte u := by
  obtain ⟨hquiet, hobject, made, ⟨chars, hconvert, hmade⟩, hs⟩ := createString_eq_some h
  have hvalue : s.value = made.value := by
    rw [hs]
    exact getD_value
  rcases hmade with ⟨hlatin, hbytes, rfl⟩ | ⟨hlatin, rfl⟩
  · cases hcoder : s.coder with
    | latin1 =>
      have heq : chars = str := (chars_of_latin1 hlatin hvalue hcoder).symm.trans hchars
      subst heq
      refine ⟨⟨hquiet, hobject, hbytes, fun j hj => .inr ?_⟩, singleByte_of_converted hconvert⟩
      have hlookup : vm.lookupInternedJstring ⟨chars.map UInt16.toUInt8, .latin1⟩ = some j := hj
      rw [hlookup] at hs
      rw [← hcoder, hs]
      rfl
    | utf16 =>
      have hhalf := chars_length_of_latin1 hvalue hcoder
      have hroom : (encodeInto str str.length).length ≤ str.length := encodeScalars_length _ _
      have hle := (convertModifiedUtf8ToChars_length hconvert).1
      rw [hchars] at hhalf
      have hempty : str = [] := length_eq_zero_iff.mp (by omega)
      have hzero : chars.length = str.length := by omega
      rw [hzero] at hbytes
      refine ⟨⟨hquiet, hobject, hbytes, fun _ _ => .inl hempty⟩, ?_⟩
      rw [hempty]
      nofun
  · cases hcoder : s.coder with
    | latin1 =>
      rw [not_latin1_of_utf16 hcoder hchars hconvert] at hlatin
      cases hlatin
    | utf16 =>
      have heq : s.chars = chars := by
        rw [JavaString.chars, hcoder, hvalue]
        exact littleEndianUnits_flatMap chars
      rw [hchars] at heq
      subst heq
      rw [doLatin1_ascii (singleByte_of_converted hconvert)] at hlatin
      cases hlatin

/-- A string comes back through the bridge exactly if its characters are in the range U+0001 to
U+007F, the memory suffices, and no interned UTF-16 string has the same bytes. -/
theorem createString_lossless_iff (vm : StringVm) (str : JsString) :
    vm.Lossless str ↔ vm.Ready str ∧ ∀ u ∈ str, SingleByte u := by
  constructor
  · rintro ⟨s, hcreate, hchars, -⟩
    exact ready_of_chars hcreate hchars
  · rintro ⟨hready, hstr⟩
    have hcreate : vm.createString str = some (some ((vm.lookupInternedJstring
        ⟨str.map UInt16.toUInt8, .latin1⟩).getD ⟨str.map UInt16.toUInt8, .latin1⟩)) := by
      unfold createString
      dsimp only
      rw [encodeInto_ascii hstr, ffiCreateString_ascii hready hstr, hready.quiet]
      rfl
    have hmade : createHandle (some ⟨str.map UInt16.toUInt8, .latin1⟩) = some str :=
      congrArg some (decodeLatin1_ascii hstr)
    cases hlookup : vm.lookupInternedJstring ⟨str.map UInt16.toUInt8, .latin1⟩ with
    | none =>
      rw [hlookup] at hcreate
      exact ⟨_, hcreate, chars_ascii hstr, hmade⟩
    | some s =>
      rw [hlookup] at hcreate
      have hvalue := lookupInternedJstring_value hlookup
      obtain ⟨value, coder⟩ := s
      obtain rfl : value = str.map UInt16.toUInt8 := hvalue
      refine ⟨_, hcreate, ?_⟩
      rcases hready.interned _ hlookup with rfl | hcoder
      · cases coder <;> exact ⟨rfl, rfl⟩
      · obtain rfl : coder = .latin1 := hcoder
        exact ⟨chars_ascii hstr, hmade⟩

/-- With all the memory it asks for, `createString` makes an empty string of U+00E9: the buffer of
one byte has no room for the two bytes of the character. -/
theorem createString_loses_accent :
    let vm : StringVm := ⟨false, true, fun _ => true, []⟩
    vm.createString [0xE9] = some (some ⟨[], .latin1⟩) ∧ ¬ vm.Lossless [0xE9] := by
  intro vm
  have hcreate : vm.createString [0xE9] = some (some ⟨[], .latin1⟩) := by decide +kernel
  refine ⟨hcreate, ?_⟩
  rintro ⟨s, hs, hchars, -⟩
  rw [hcreate] at hs
  cases hs
  cases hchars

end StringVm

end TraceJvm
