import Mathlib.Tactic
import TraceJvm.StringBridge

/-! Strings in the heap, and the conversion between them and the modified UTF-8 of class files
(JVMS 4.4.7). -/
namespace TraceJvm

open List

/-! ### The encoding -/

def encodeUnit (u : UInt16) : List UInt8 :=
  let n := u.toNat
  if 1 ≤ n ∧ n < 128 then [.ofNat n]
  else if n < 2048 then [.ofNat (192 + n / 64), .ofNat (128 + n % 64)]
  else [.ofNat (224 + n / 4096), .ofNat (128 + n / 64 % 64), .ofNat (128 + n % 64)]

def encodeModifiedUtf8 (units : List UInt16) : List UInt8 := units.flatMap encodeUnit

def ValidEncoding (bytes : List UInt8) : Prop := ∃ units, encodeModifiedUtf8 units = bytes

/-! ### The decoder -/

def twoByteUnit (x y : UInt8) : UInt16 :=
  ((x.toUInt16 &&& 0x1F) <<< 6) ||| (y.toUInt16 &&& 0x3F)

def threeByteUnit (x y z : UInt8) : UInt16 :=
  ((x.toUInt16 &&& 0x0F) <<< 12) ||| ((y.toUInt16 &&& 0x3F) <<< 6) ||| (z.toUInt16 &&& 0x3F)

/-! ### Strings -/

/-- `native_String` with the contents of its array, two bytes for each UTF-16 character. -/
structure JString extends JavaString where
  even : coder = .utf16 → Even value.length
  deriving DecidableEq

def utf16Bytes (chars : List UInt16) : List UInt8 :=
  chars.flatMap fun c : UInt16 => [c.toUInt8, (c >>> 8).toUInt8]

theorem utf16Bytes_cons (u : UInt16) (us : List UInt16) :
    utf16Bytes (u :: us) = .ofNat (u.toNat % 256) :: .ofNat (u.toNat / 256) :: utf16Bytes us := by
  have hlow : u.toUInt8 = .ofNat (u.toNat % 256) := by
    apply UInt8.toNat_inj.mp
    rw [UInt16.toNat_toUInt8, UInt8.toNat_ofNat', Nat.mod_mod]
  have hhigh : (u >>> 8).toUInt8 = .ofNat (u.toNat / 256) := by
    apply UInt8.toNat_inj.mp
    rw [UInt16.toNat_toUInt8, UInt8.toNat_ofNat', UInt16.toNat_shiftRight]
    show u.toNat >>> 8 % 256 = _
    rw [Nat.shiftRight_eq_div_pow]
  show u.toUInt8 :: (u >>> 8).toUInt8 :: utf16Bytes us = _
  rw [hlow, hhigh]

@[simp] theorem utf16Bytes_length (units : List UInt16) :
    (utf16Bytes units).length = 2 * units.length := by
  induction units with
  | nil => rfl
  | cons u us ih =>
    rw [utf16Bytes_cons, length_cons, length_cons, length_cons, ih]
    omega

/-- The string that `make_jstring_modified_utf8` builds from the characters. -/
def JString.ofUnits (chars : List UInt16) : JString :=
  if doLatin1 chars then ⟨⟨chars.map UInt16.toUInt8, .latin1⟩, nofun⟩
  else ⟨⟨utf16Bytes chars, .utf16⟩, fun _ => by simp⟩

/-- The state of a thread that the creation of a string reads and writes. A handle is known by a
number. -/
structure StringThread where
  handles : List ℕ
  exception : Option String
  deriving DecidableEq

def StringThread.outOfMemory (t : StringThread) : StringThread :=
  { t with exception := some "java/lang/OutOfMemoryError" }

structure StringAllocations where
  object : Bool
  value : Bool

/-- `make_jstring_modified_utf8`; `handle` is the one that is made for the string. An encoding that
cannot be converted gives null and no exception. -/
def makeJstringModifiedUtf8 (alloc : StringAllocations) (handle : ℕ) (t : StringThread)
    (string : List UInt8) : Option JString × StringThread :=
  if !alloc.object then (none, t.outOfMemory)
  else
    let held := { t with handles := handle :: t.handles }
    let dropped := fun t : StringThread => { t with handles := t.handles.erase handle }
    match convertModifiedUtf8ToChars string with
    | none => (none, dropped held)
    | some chars =>
      if !alloc.value then (none, dropped held.outOfMemory)
      else (some (.ofUnits chars), dropped held)

/-- `read_string_to_utf8`: the bytes of the array as they are. -/
def readStringToUtf8 (s : JString) : List UInt8 := s.value

/-! ### Arithmetic of the forms -/

theorem isTwoByte_iff (b : UInt8) : b &&& 0xE0 = 0xC0 ↔ 192 ≤ b.toNat ∧ b.toNat < 224 := by
  have h : ∀ x : BitVec 8, x &&& 0xE0#8 = 0xC0#8 ↔ 192 ≤ x.toNat ∧ x.toNat < 224 := by
    decide +kernel
  rw [← UInt8.toBitVec_inj]
  exact h b.toBitVec

theorem isThreeByte_iff (b : UInt8) : b &&& 0xF0 = 0xE0 ↔ 224 ≤ b.toNat ∧ b.toNat < 240 := by
  have h : ∀ x : BitVec 8, x &&& 0xF0#8 = 0xE0#8 ↔ 224 ≤ x.toNat ∧ x.toNat < 240 := by
    decide +kernel
  rw [← UInt8.toBitVec_inj]
  exact h b.toBitVec

theorem isOneByte_iff (b : UInt8) :
    (0x01 ≤ b && b ≤ 0x7F) = true ↔ 1 ≤ b.toNat ∧ b.toNat < 128 := by
  rw [Bool.and_eq_true, decide_eq_true_eq, decide_eq_true_eq, UInt8.le_iff_toNat_le,
    UInt8.le_iff_toNat_le]
  show 1 ≤ b.toNat ∧ b.toNat ≤ 127 ↔ _
  omega

theorem twoByteUnit_toNat (x y : UInt8) :
    (twoByteUnit x y).toNat = x.toNat % 32 * 64 + y.toNat % 64 := by
  have hy : y.toNat % 64 < 2 ^ 6 := Nat.mod_lt _ (by decide)
  have hx : x.toNat &&& 31 = x.toNat % 32 := Nat.and_two_pow_sub_one_eq_mod _ 5
  have hy' : y.toNat &&& 63 = y.toNat % 64 := Nat.and_two_pow_sub_one_eq_mod _ 6
  unfold twoByteUnit
  simp only [UInt16.toNat_or, UInt16.toNat_shiftLeft, UInt16.toNat_and, UInt8.toNat_toUInt16,
    UInt16.reduceToNat, hx, hy']
  have hshift : (x.toNat % 32) <<< (6 % 16) % 2 ^ 16 = 2 ^ 6 * (x.toNat % 32) := by
    rw [Nat.shiftLeft_eq]
    norm_num
    omega
  rw [hshift, ← Nat.two_pow_add_eq_or_of_lt hy, Nat.mul_comm]

theorem threeByteUnit_toNat (x y z : UInt8) :
    (threeByteUnit x y z).toNat =
      x.toNat % 16 * 4096 + y.toNat % 64 * 64 + z.toNat % 64 := by
  have hy : 2 ^ 6 * (y.toNat % 64) < 2 ^ 12 := by omega
  have hz : z.toNat % 64 < 2 ^ 6 := Nat.mod_lt _ (by decide)
  have hx : x.toNat &&& 15 = x.toNat % 16 := Nat.and_two_pow_sub_one_eq_mod _ 4
  have hy' : y.toNat &&& 63 = y.toNat % 64 := Nat.and_two_pow_sub_one_eq_mod _ 6
  have hz' : z.toNat &&& 63 = z.toNat % 64 := Nat.and_two_pow_sub_one_eq_mod _ 6
  unfold threeByteUnit
  simp only [UInt16.toNat_or, UInt16.toNat_shiftLeft, UInt16.toNat_and, UInt8.toNat_toUInt16,
    UInt16.reduceToNat, hx, hy', hz']
  have hshift : (x.toNat % 16) <<< (12 % 16) % 2 ^ 16 = 2 ^ 12 * (x.toNat % 16) := by
    rw [Nat.shiftLeft_eq]
    norm_num
    omega
  have hshift' : (y.toNat % 64) <<< (6 % 16) % 2 ^ 16 = 2 ^ 6 * (y.toNat % 64) := by
    rw [Nat.shiftLeft_eq]
    norm_num
    omega
  rw [hshift, hshift', ← Nat.two_pow_add_eq_or_of_lt hy]
  have hsum : 2 ^ 12 * (x.toNat % 16) + 2 ^ 6 * (y.toNat % 64) =
      2 ^ 6 * (2 ^ 6 * (x.toNat % 16) + y.toNat % 64) := by omega
  rw [hsum, ← Nat.two_pow_add_eq_or_of_lt hz]
  omega

theorem unit_lt (u : UInt16) : u.toNat < 65536 := u.toNat_lt

theorem byte_lt (b : UInt8) : b.toNat < 256 := b.toNat_lt

theorem ofNat_byte {n : ℕ} (h : n < 256) : (UInt8.ofNat n).toNat = n := by
  rw [UInt8.toNat_ofNat']
  exact Nat.mod_eq_of_lt h

/-! ### Decoding an encoding -/

theorem convert_one {b : UInt8} (h : 1 ≤ b.toNat ∧ b.toNat < 128) (rest : List UInt8) :
    convertModifiedUtf8ToChars (b :: rest) =
      (convertModifiedUtf8ToChars rest).map (b.toUInt16 :: ·) := by
  rw [convertModifiedUtf8ToChars.eq_def]
  exact if_pos ((isOneByte_iff b).mpr h)

theorem convert_zero (rest : List UInt8) :
    convertModifiedUtf8ToChars (.ofNat 0 :: rest) = some [] := by
  rw [convertModifiedUtf8ToChars.eq_def]
  rfl

theorem convert_two {b : UInt8} (h : 192 ≤ b.toNat ∧ b.toNat < 224) (y : UInt8)
    (rest : List UInt8) :
    convertModifiedUtf8ToChars (b :: y :: rest) =
      (convertModifiedUtf8ToChars rest).map (twoByteUnit b y :: ·) := by
  have hone : ¬ (0x01 ≤ b && b ≤ 0x7F) = true := by
    rw [isOneByte_iff]
    omega
  rw [convertModifiedUtf8ToChars, if_neg hone, if_pos ((isTwoByte_iff b).mpr h)]
  rfl

theorem convert_three {b : UInt8} (h : 224 ≤ b.toNat ∧ b.toNat < 240) (y z : UInt8)
    (rest : List UInt8) :
    convertModifiedUtf8ToChars (b :: y :: z :: rest) =
      (convertModifiedUtf8ToChars rest).map (threeByteUnit b y z :: ·) := by
  have hone : ¬ (0x01 ≤ b && b ≤ 0x7F) = true := by
    rw [isOneByte_iff]
    omega
  have htwo : ¬ b &&& 0xE0 = 0xC0 := by
    rw [isTwoByte_iff]
    omega
  rw [convertModifiedUtf8ToChars, if_neg hone, if_neg htwo, if_pos ((isThreeByte_iff b).mpr h)]
  rfl

theorem convert_encodeUnit (u : UInt16) (rest : List UInt8) :
    convertModifiedUtf8ToChars (encodeUnit u ++ rest) =
      (convertModifiedUtf8ToChars rest).map (u :: ·) := by
  have hu := unit_lt u
  unfold encodeUnit
  by_cases hone : 1 ≤ u.toNat ∧ u.toNat < 128
  · have hb : (UInt8.ofNat u.toNat).toNat = u.toNat := ofNat_byte (by omega)
    have hval : (UInt8.ofNat u.toNat).toUInt16 = u := by
      apply UInt16.toNat_inj.mp
      rw [UInt8.toNat_toUInt16, hb]
    simp only [hone, and_self, if_true, cons_append, nil_append]
    rw [convert_one (by omega), hval]
  · simp only [hone, if_false]
    by_cases htwo : u.toNat < 2048
    · have hx : (UInt8.ofNat (192 + u.toNat / 64)).toNat = 192 + u.toNat / 64 :=
        ofNat_byte (by omega)
      have hy : (UInt8.ofNat (128 + u.toNat % 64)).toNat = 128 + u.toNat % 64 :=
        ofNat_byte (by omega)
      have hval : twoByteUnit (.ofNat (192 + u.toNat / 64)) (.ofNat (128 + u.toNat % 64)) = u := by
        apply UInt16.toNat_inj.mp
        rw [twoByteUnit_toNat, hx, hy]
        omega
      simp only [htwo, if_true, cons_append, nil_append]
      rw [convert_two (by omega), hval]
    · have hx : (UInt8.ofNat (224 + u.toNat / 4096)).toNat = 224 + u.toNat / 4096 :=
        ofNat_byte (by omega)
      have hy : (UInt8.ofNat (128 + u.toNat / 64 % 64)).toNat = 128 + u.toNat / 64 % 64 :=
        ofNat_byte (by omega)
      have hz : (UInt8.ofNat (128 + u.toNat % 64)).toNat = 128 + u.toNat % 64 :=
        ofNat_byte (by omega)
      have hval : threeByteUnit (.ofNat (224 + u.toNat / 4096))
          (.ofNat (128 + u.toNat / 64 % 64)) (.ofNat (128 + u.toNat % 64)) = u := by
        apply UInt16.toNat_inj.mp
        rw [threeByteUnit_toNat, hx, hy, hz]
        omega
      simp only [htwo, if_false, cons_append, nil_append]
      rw [convert_three (by omega), hval]

theorem convert_encode (units : List UInt16) :
    convertModifiedUtf8ToChars (encodeModifiedUtf8 units) = some units := by
  induction units with
  | nil => rfl
  | cons u units ih =>
    unfold encodeModifiedUtf8 at ih ⊢
    rw [flatMap_cons, convert_encodeUnit, ih]
    rfl

/-! ### The string of a sequence of code units -/

theorem doLatin1_iff (chars : List UInt16) :
    doLatin1 chars = true ↔ ∀ c ∈ chars, c.toNat < 256 := by
  unfold doLatin1
  rw [all_eq_true]
  apply forall₂_congr
  intro c _
  rw [decide_eq_true_eq, latin1_iff]
  exact Nat.lt_succ_iff.symm

theorem units_utf16Bytes (chars : List UInt16) : (littleEndianUnits (utf16Bytes chars)).1 = chars :=
  StringVm.littleEndianUnits_flatMap chars

@[simp] theorem JString.chars_ofUnits (chars : List UInt16) :
    (JString.ofUnits chars).chars = chars := by
  unfold JString.ofUnits
  by_cases h : doLatin1 chars = true
  · rw [if_pos h]
    exact StringVm.chars_of_latin1 h rfl rfl
  · rw [if_neg h]
    exact units_utf16Bytes chars

theorem JString.coder_ofUnits (chars : List UInt16) :
    (JString.ofUnits chars).coder = .latin1 ↔ ∀ c ∈ chars, c.toNat < 256 := by
  rw [← doLatin1_iff]
  unfold JString.ofUnits
  by_cases h : doLatin1 chars = true
  · rw [if_pos h]
    exact iff_of_true rfl h
  · rw [if_neg h]
    exact iff_of_false nofun h

/-! ### What the decoder does with any bytes -/

inductive Converts : List UInt8 → List UInt16 → Prop where
  | done : Converts [] []
  | zero (rest : List UInt8) : Converts (0 :: rest) []
  | one {b : UInt8} {rest : List UInt8} {out : List UInt16} (h : 1 ≤ b.toNat ∧ b.toNat < 128)
    (hrest : convertModifiedUtf8ToChars rest = some out) : Converts (b :: rest) (b.toUInt16 :: out)
  | two {b y : UInt8} {rest : List UInt8} {out : List UInt16} (h : 192 ≤ b.toNat ∧ b.toNat < 224)
    (hrest : convertModifiedUtf8ToChars rest = some out) :
    Converts (b :: y :: rest) (twoByteUnit b y :: out)
  | three {b y z : UInt8} {rest : List UInt8} {out : List UInt16}
    (h : 224 ≤ b.toNat ∧ b.toNat < 240) (hrest : convertModifiedUtf8ToChars rest = some out) :
    Converts (b :: y :: z :: rest) (threeByteUnit b y z :: out)

theorem converts_of_eq_some {bytes : List UInt8} {out : List UInt16}
    (h : convertModifiedUtf8ToChars bytes = some out) : Converts bytes out := by
  rw [convertModifiedUtf8ToChars.eq_def] at h
  split at h
  · cases h
    exact .done
  · rename_i b rest
    split at h
    · rename_i hone
      obtain ⟨out', hout, rfl⟩ := Option.map_eq_some_iff.mp h
      exact .one ((isOneByte_iff b).mp hone) hout
    · split at h
      · rename_i htwo
        split at h
        · obtain ⟨out', hout, rfl⟩ := Option.map_eq_some_iff.mp h
          exact .two ((isTwoByte_iff b).mp htwo) hout
        · cases h
      · split at h
        · rename_i hthree
          split at h
          · obtain ⟨out', hout, rfl⟩ := Option.map_eq_some_iff.mp h
            exact .three ((isThreeByte_iff b).mp hthree) hout
          · cases h
        · split at h
          · rename_i hzero
            cases h
            rw [hzero]
            exact .zero rest
          · cases h

theorem convert_length {bytes : List UInt8} {out : List UInt16}
    (h : convertModifiedUtf8ToChars bytes = some out) : out.length ≤ bytes.length := by
  induction out generalizing bytes with
  | nil => exact Nat.zero_le _
  | cons u out ih =>
    cases converts_of_eq_some h with
    | one hb hrest | two hb hrest | three hb hrest =>
      have hlen := ih hrest
      simp only [length_cons]
      omega

/-- Bytes of Latin-1 characters decode to these characters only where each has the one-byte form. -/
theorem convert_latin1_iff (bytes : List UInt8) :
    convertModifiedUtf8ToChars bytes = some (bytes.map UInt8.toUInt16) ↔
      ∀ b ∈ bytes, 1 ≤ b.toNat ∧ b.toNat < 128 := by
  induction bytes with
  | nil => exact iff_of_true rfl fun _ hb => absurd hb not_mem_nil
  | cons b bytes ih =>
    rw [map_cons, forall_mem_cons]
    constructor
    · intro h
      generalize hout : b.toUInt16 :: bytes.map UInt8.toUInt16 = out at h
      have hlen : out.length = bytes.length + 1 := by
        rw [← hout, length_cons, length_map]
      cases converts_of_eq_some h with
      | zero rest => cases hout
      | one hb hrest =>
        rw [← (cons.inj hout).2] at hrest
        exact ⟨hb, ih.mp hrest⟩
      | two hb hrest | three hb hrest =>
        have hle := convert_length hrest
        simp only [length_cons] at hlen
        omega
    · rintro ⟨hb, hbs⟩
      rw [convert_one hb, ih.mpr hbs]
      rfl

theorem littleEndian_toNat (lo hi : UInt8) :
    (lo.toUInt16 ||| hi.toUInt16 <<< 8).toNat = lo.toNat + 256 * hi.toNat := by
  have hlo : lo.toNat < 2 ^ 8 := byte_lt lo
  have hhi := byte_lt hi
  have hshift : hi.toNat <<< 8 % 2 ^ 16 = hi.toNat <<< 8 := by
    rw [Nat.shiftLeft_eq]
    omega
  rw [UInt16.toNat_or, UInt16.toNat_shiftLeft, UInt8.toNat_toUInt16, UInt8.toNat_toUInt16]
  show lo.toNat ||| hi.toNat <<< 8 % 2 ^ 16 = _
  rw [hshift, Nat.or_comm, ← Nat.shiftLeft_add_eq_or_of_lt hlo, Nat.shiftLeft_eq]
  omega

theorem utf16Bytes_units {bytes : List UInt8} (h : Even bytes.length) :
    utf16Bytes (littleEndianUnits bytes).1 = bytes := by
  induction bytes using littleEndianUnits.induct with
  | case1 => rfl
  | case2 b => simp at h
  | case3 lo hi rest ih =>
    rw [length_cons, length_cons, Nat.even_add_one, Nat.even_add_one, not_not] at h
    have hlo := byte_lt lo
    have hhi := byte_lt hi
    rw [littleEndianUnits, utf16Bytes_cons, ih h, littleEndian_toNat]
    have hlow : (lo.toNat + 256 * hi.toNat) % 256 = lo.toNat := by omega
    have hhigh : (lo.toNat + 256 * hi.toNat) / 256 = hi.toNat := by omega
    rw [hlow, hhigh, UInt8.ofNat_toNat, UInt8.ofNat_toNat]

/-- Read from a later position, the bytes of UTF-16 characters do not decode to these characters. A
decoder that has read one byte too many needs a three-byte form next, since its first byte is the
higher half of the character, and so it never makes up for it. -/
theorem convert_utf16_shifted {units : List UInt16} {d : ℕ} (hpos : 1 ≤ d)
    (hd : d ≤ 2 * units.length) :
    convertModifiedUtf8ToChars ((utf16Bytes units).drop d) ≠ some units := by
  induction units generalizing d with
  | nil =>
    simp at hd
    omega
  | cons u us ih =>
    intro h
    have hu := unit_lt u
    rw [length_cons] at hd
    rw [utf16Bytes_cons] at h
    generalize hout : u :: us = out at h
    by_cases hone : d = 1
    · rw [hone, drop_succ_cons, drop_zero] at h
      have hhigh : (UInt8.ofNat (u.toNat / 256)).toNat = u.toNat / 256 := ofNat_byte (by omega)
      generalize hbytes : UInt8.ofNat (u.toNat / 256) :: utf16Bytes us = bytes at h
      cases converts_of_eq_some h with
      | done => cases hout
      | zero rest => cases hout
      | @one b rest out' hb hrest =>
        cases hbytes
        have hval := congrArg UInt16.toNat (cons.inj hout).1
        rw [UInt8.toNat_toUInt16] at hval
        omega
      | @two b y rest out' hb hrest =>
        have hb' := congrArg UInt8.toNat (cons.inj hbytes).1
        have hval := congrArg UInt16.toNat (cons.inj hout).1
        rw [twoByteUnit_toNat] at hval
        omega
      | @three b y z rest out' hb hrest =>
        obtain ⟨-, hus⟩ := cons.inj hbytes
        cases hout
        have hlen := congrArg List.length hus
        simp only [utf16Bytes_length, length_cons] at hlen
        apply ih (d := 2) (by omega) (by omega)
        rw [hus]
        exact hrest
    · obtain ⟨k, rfl⟩ : ∃ k, d = k + 2 := ⟨d - 2, by omega⟩
      rw [drop_succ_cons, drop_succ_cons] at h
      generalize hbytes : (utf16Bytes us).drop k = bytes at h
      have hlen := congrArg List.length hbytes
      rw [length_drop, utf16Bytes_length] at hlen
      cases converts_of_eq_some h with
      | done => cases hout
      | zero rest => cases hout
      | @one b rest out' hb hrest =>
        cases hout
        rw [length_cons] at hlen
        apply ih (d := k + 1) (by omega) (by omega)
        rw [← drop_drop, hbytes]
        exact hrest
      | @two b y rest out' hb hrest =>
        cases hout
        rw [length_cons, length_cons] at hlen
        apply ih (d := k + 2) (by omega) (by omega)
        rw [← drop_drop, hbytes]
        exact hrest
      | @three b y z rest out' hb hrest =>
        cases hout
        rw [length_cons, length_cons, length_cons] at hlen
        apply ih (d := k + 3) (by omega) (by omega)
        rw [← drop_drop, hbytes]
        exact hrest

theorem twoByte_ne {u : ℕ} (hlow : 192 ≤ u % 256 ∧ u % 256 < 224) :
    u ≠ u % 256 % 32 * 64 + u / 256 % 64 := by
  intro h
  have hsmall : u / 256 < 8 := by omega
  interval_cases hhigh : u / 256
  all_goals omega

theorem convert_utf16_iff (units : List UInt16) :
    convertModifiedUtf8ToChars (utf16Bytes units) = some units ↔
      units.length ≤ 1 ∧ ∀ u ∈ units, 1 ≤ u.toNat ∧ u.toNat < 128 := by
  cases units with
  | nil => exact iff_of_true rfl ⟨Nat.zero_le _, fun _ hu => absurd hu not_mem_nil⟩
  | cons u us =>
    have hu := unit_lt u
    have hlow : (UInt8.ofNat (u.toNat % 256)).toNat = u.toNat % 256 := ofNat_byte (by omega)
    have hhigh : (UInt8.ofNat (u.toNat / 256)).toNat = u.toNat / 256 := ofNat_byte (by omega)
    constructor
    · intro h
      rw [utf16Bytes_cons] at h
      generalize hout : u :: us = out at h
      generalize hbytes : UInt8.ofNat (u.toNat % 256) :: UInt8.ofNat (u.toNat / 256) ::
        utf16Bytes us = bytes at h
      cases converts_of_eq_some h with
      | done => cases hout
      | zero rest => cases hout
      | @one b rest out' hb hrest =>
        cases hbytes
        obtain ⟨hval, rfl⟩ := cons.inj hout
        have hval := congrArg UInt16.toNat hval
        rw [UInt8.toNat_toUInt16] at hval
        have hzero : u.toNat / 256 = 0 := by omega
        rw [hzero, convert_zero] at hrest
        cases hrest
        refine ⟨le_rfl, ?_⟩
        intro c hc
        rw [mem_singleton.mp hc, UInt8.toNat_toUInt16]
        exact hb
      | @two b y rest out' hb hrest =>
        obtain ⟨rfl, htail⟩ := cons.inj hbytes
        cases htail
        have hval := congrArg UInt16.toNat (cons.inj hout).1
        rw [twoByteUnit_toNat, hlow, hhigh] at hval
        rw [hlow] at hb
        exact absurd hval (twoByte_ne hb)
      | @three b y z rest out' hb hrest =>
        obtain ⟨-, hbytes⟩ := cons.inj hbytes
        obtain ⟨-, hus⟩ := cons.inj hbytes
        cases hout
        have hlen := congrArg List.length hus
        rw [utf16Bytes_length, length_cons] at hlen
        have hdrop : (utf16Bytes us).drop 1 = rest := by rw [hus]; rfl
        rw [← hdrop] at hrest
        exact absurd hrest (convert_utf16_shifted le_rfl (by omega))
    · rintro ⟨hlen, hall⟩
      have hc := hall u mem_cons_self
      obtain rfl : us = [] := by
        apply length_eq_zero_iff.mp
        rw [length_cons] at hlen
        omega
      have hzero : u.toNat / 256 = 0 := by omega
      have hval : (UInt8.ofNat (u.toNat % 256)).toUInt16 = u := by
        apply UInt16.toNat_inj.mp
        rw [UInt8.toNat_toUInt16, hlow]
        omega
      rw [utf16Bytes_cons, convert_one (by omega), hzero, hval]
      rfl

/-! ### The codec -/

section Codec

variable (handle : ℕ) (t : StringThread)

theorem makeJstring_valid {bytes : List UInt8} {chars : List UInt16}
    (h : convertModifiedUtf8ToChars bytes = some chars) :
    makeJstringModifiedUtf8 ⟨true, true⟩ handle t bytes = (some (.ofUnits chars), t) := by
  simp [makeJstringModifiedUtf8, h]

theorem makeJstring_invalid {bytes : List UInt8} (h : convertModifiedUtf8ToChars bytes = none) :
    makeJstringModifiedUtf8 ⟨true, true⟩ handle t bytes = (none, t) := by
  simp [makeJstringModifiedUtf8, h]

end Codec

/-- The encoding of the code units decodes to a string with these code units, in the compact form
where they allow it, and no handle is left. -/
def DecodesRight (units : List UInt16) : Prop :=
  ∀ handle t, ∃ s : JString,
    makeJstringModifiedUtf8 ⟨true, true⟩ handle t (encodeModifiedUtf8 units) = (some s, t) ∧
      s.chars = units ∧ (s.coder = .latin1 ↔ ∀ u ∈ units, u.toNat < 256)

/-- Bytes that are no encoding are rejected: null is returned with a pending exception, and no
handle is left. -/
def RejectsRight (bytes : List UInt8) : Prop :=
  ¬ ValidEncoding bytes → ∀ alloc handle t, ∃ e,
    makeJstringModifiedUtf8 alloc handle t bytes = (none, { t with exception := some e })

/-- The output of `read_string_to_utf8` decodes to the string. -/
def ReadsRight (s : JString) : Prop :=
  ∀ handle t, ∃ s' : JString,
    makeJstringModifiedUtf8 ⟨true, true⟩ handle t (readStringToUtf8 s) = (some s', t) ∧
      s'.chars = s.chars

theorem decodesRight (units : List UInt16) : DecodesRight units := by
  intro handle t
  exact ⟨.ofUnits units, makeJstring_valid handle t (convert_encode units),
    JString.chars_ofUnits units, JString.coder_ofUnits units⟩

theorem rejectsRight_iff (bytes : List UInt8) : RejectsRight bytes ↔ ValidEncoding bytes := by
  constructor
  · intro h
    by_contra hinvalid
    obtain ⟨e, he⟩ := h hinvalid ⟨true, true⟩ 0 ⟨[], none⟩
    cases hconv : convertModifiedUtf8ToChars bytes with
    | none =>
      rw [makeJstring_invalid 0 _ hconv] at he
      cases he
    | some chars =>
      rw [makeJstring_valid 0 _ hconv] at he
      cases he
  · intro h hinvalid
    exact absurd h hinvalid

theorem readsRight_iff_convert (s : JString) :
    ReadsRight s ↔ convertModifiedUtf8ToChars s.value = some s.chars := by
  unfold ReadsRight readStringToUtf8
  constructor
  · intro h
    obtain ⟨s', hs', hunits⟩ := h 0 ⟨[], none⟩
    cases hconv : convertModifiedUtf8ToChars s.value with
    | none =>
      rw [makeJstring_invalid 0 _ hconv] at hs'
      cases hs'
    | some chars =>
      rw [makeJstring_valid 0 _ hconv] at hs'
      cases hs'
      rw [JString.chars_ofUnits] at hunits
      rw [hunits]
  · intro h handle t
    exact ⟨_, makeJstring_valid handle t h, JString.chars_ofUnits s.chars⟩

theorem readsRight_iff (s : JString) :
    ReadsRight s ↔ (∀ u ∈ s.chars, 1 ≤ u.toNat ∧ u.toNat < 128) ∧
      (s.coder = .utf16 → s.chars.length ≤ 1) := by
  rw [readsRight_iff_convert]
  obtain ⟨⟨value, coder⟩, heven⟩ := s
  cases coder with
  | latin1 =>
    show convertModifiedUtf8ToChars value = some (value.map UInt8.toUInt16) ↔
      (∀ u ∈ value.map UInt8.toUInt16, 1 ≤ u.toNat ∧ u.toNat < 128) ∧ _
    rw [convert_latin1_iff, forall_mem_map]
    simp
  | utf16 =>
    show convertModifiedUtf8ToChars value = some ((littleEndianUnits value).1) ↔
      (∀ u ∈ (littleEndianUnits value).1, 1 ≤ u.toNat ∧ u.toNat < 128) ∧
        (_ → (littleEndianUnits value).1.length ≤ 1)
    have hvalue := utf16Bytes_units (heven rfl)
    have hiff := convert_utf16_iff (littleEndianUnits value).1
    rw [hvalue] at hiff
    rw [hiff]
    simp [and_comm]

/-- The encoding of every sequence of code units decodes right; bytes that are no encoding are never
rejected as they should be; and what `read_string_to_utf8` returns decodes to the string if its
characters are ASCII ones other than NUL, with at most one of them in a UTF-16 coded string. -/
theorem codec_right_iff (units : List UInt16) (bytes : List UInt8) (s : JString) :
    DecodesRight units ∧ (RejectsRight bytes ↔ ValidEncoding bytes) ∧
      (ReadsRight s ↔ (∀ u ∈ s.chars, 1 ≤ u.toNat ∧ u.toNat < 128) ∧
        (s.coder = .utf16 → s.chars.length ≤ 1)) :=
  ⟨decodesRight units, rejectsRight_iff bytes, readsRight_iff s⟩

/-- A lone byte `0xFF` gives null without an exception, `0xC0 0x41` is decoded, and `é` does not
survive `read_string_to_utf8`. -/
theorem codec_wrong :
    makeJstringModifiedUtf8 ⟨true, true⟩ 0 ⟨[], none⟩ [0xFF] = (none, ⟨[], none⟩) ∧
      makeJstringModifiedUtf8 ⟨true, true⟩ 0 ⟨[], none⟩ [0xC0, 0x41] =
        (some (.ofUnits [1]), ⟨[], none⟩) ∧
      ¬ (∀ bytes, RejectsRight bytes) ∧ ¬ ReadsRight (.ofUnits [0xE9]) := by
  refine ⟨by decide, by decide, ?_, ?_⟩
  · intro h
    obtain ⟨units, hunits⟩ := (rejectsRight_iff [0xFF]).mp (h [0xFF])
    have hconv := convert_encode units
    rw [hunits] at hconv
    cases hconv
  · intro h
    have hascii := (readsRight_iff _).mp h
    rw [JString.chars_ofUnits] at hascii
    have hlt := (hascii.1 0xE9 mem_cons_self).2
    revert hlt
    decide

end TraceJvm
