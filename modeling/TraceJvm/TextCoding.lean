import TraceJvm.StringBridge
import TraceJvm.Lib.JsonText

/-! `TextEncoder` and `TextDecoder` for UTF-8. The decoder is the state machine of the encoding
standard of the web, with U+FFFD for what is not UTF-8. -/
namespace TraceJvm

open JsonText List

/-- `new TextEncoder().encode(str)` -/
def encodeUtf8 (str : JsString) : List UInt8 := (scalarValues str).flatMap utf8Bytes

/-- The bits so far, how many bytes are missing, and the bounds of the next one. -/
structure Utf8State where
  codePoint : ℕ
  needed : ℕ
  lower : ℕ
  upper : ℕ

def Utf8State.start : Utf8State := ⟨0, 0, 0x80, 0xBF⟩

def utf8Lead (n : ℕ) : List ℕ × Utf8State :=
  if n < 0x80 then ([n], .start)
  else if 0xC2 ≤ n ∧ n ≤ 0xDF then ([], ⟨n % 0x20, 1, 0x80, 0xBF⟩)
  else if 0xE0 ≤ n ∧ n ≤ 0xEF then
    ([], ⟨n % 0x10, 2, if n = 0xE0 then 0xA0 else 0x80, if n = 0xED then 0x9F else 0xBF⟩)
  else if 0xF0 ≤ n ∧ n ≤ 0xF4 then
    ([], ⟨n % 0x08, 3, if n = 0xF0 then 0x90 else 0x80, if n = 0xF4 then 0x8F else 0xBF⟩)
  else ([0xFFFD], .start)

def utf8Step (s : Utf8State) (n : ℕ) : List ℕ × Utf8State :=
  if s.needed = 0 then utf8Lead n
  else if s.lower ≤ n ∧ n ≤ s.upper then
    if s.needed = 1 then ([s.codePoint * 0x40 + n % 0x40], .start)
    else ([], ⟨s.codePoint * 0x40 + n % 0x40, s.needed - 1, 0x80, 0xBF⟩)
  else (0xFFFD :: (utf8Lead n).1, (utf8Lead n).2)

def utf8Scalars : Utf8State → List UInt8 → List ℕ
  | s, [] => if s.needed = 0 then [] else [0xFFFD]
  | s, b :: bytes => (utf8Step s b.toNat).1 ++ utf8Scalars (utf8Step s b.toNat).2 bytes

/-- `new TextDecoder().decode(bytes)`: a leading byte order mark is dropped. -/
def decodeUtf8 (bytes : List UInt8) : JsString :=
  let scalars := utf8Scalars .start bytes
  (if scalars.head? = some 0xFEFF then scalars.tail else scalars).flatMap utf16Units

def IsScalar (c : ℕ) : Prop := c < 0xD800 ∨ 0xE000 ≤ c ∧ c < 0x110000

theorem toNat_ofNat_byte {n : ℕ} (h : n < 256) : (UInt8.ofNat n).toNat = n := by
  rw [UInt8.toNat_ofNat']
  exact Nat.mod_eq_of_lt h

theorem utf8Scalars_cons {n : ℕ} (h : n < 256) (s : Utf8State) (bytes : List UInt8) :
    utf8Scalars s (UInt8.ofNat n :: bytes) =
      (utf8Step s n).1 ++ utf8Scalars (utf8Step s n).2 bytes := by
  rw [utf8Scalars, toNat_ofNat_byte h]

theorem utf8Step_middle {s : Utf8State} {n : ℕ} (hneeded : 2 ≤ s.needed) (hlow : s.lower ≤ n)
    (hhigh : n ≤ s.upper) :
    utf8Step s n = ([], ⟨s.codePoint * 0x40 + n % 0x40, s.needed - 1, 0x80, 0xBF⟩) := by
  unfold utf8Step
  rw [if_neg (by omega), if_pos ⟨hlow, hhigh⟩, if_neg (by omega)]

theorem utf8Step_last {s : Utf8State} {n : ℕ} (hneeded : s.needed = 1) (hlow : s.lower ≤ n)
    (hhigh : n ≤ s.upper) : utf8Step s n = ([s.codePoint * 0x40 + n % 0x40], .start) := by
  unfold utf8Step
  rw [if_neg (by omega), if_pos ⟨hlow, hhigh⟩, if_pos hneeded]

/-- One scalar value is decoded from its bytes. -/
theorem utf8Scalars_utf8Bytes {c : ℕ} (hc : IsScalar c) (bytes : List UInt8) :
    utf8Scalars .start (utf8Bytes c ++ bytes) = c :: utf8Scalars .start bytes := by
  have hstart : ∀ n, utf8Step .start n = utf8Lead n := fun n => if_pos rfl
  unfold IsScalar at hc
  unfold utf8Bytes
  split_ifs with h₁ h₂ h₃
  · rw [singleton_append, utf8Scalars_cons (by omega), hstart, utf8Lead, if_pos (by omega)]
    rfl
  · rw [cons_append, singleton_append, utf8Scalars_cons (by omega), hstart, utf8Lead,
      if_neg (by omega), if_pos (by omega), utf8Scalars_cons (by omega),
      utf8Step_last rfl (by dsimp only; omega) (by dsimp only; omega)]
    have hvalue : (0xC0 + c / 0x40) % 0x20 * 0x40 + (0x80 + c % 0x40) % 0x40 = c := by omega
    simp only [hvalue, nil_append, singleton_append]
  · have hlow : (if 0xE0 + c / 0x1000 = 0xE0 then 0xA0 else 0x80) ≤ 0x80 + c / 0x40 % 0x40 := by
      split_ifs <;> omega
    have hhigh : 0x80 + c / 0x40 % 0x40 ≤ if 0xE0 + c / 0x1000 = 0xED then 0x9F else 0xBF := by
      split_ifs <;> omega
    rw [cons_append, cons_append, singleton_append, utf8Scalars_cons (by omega),
      hstart, utf8Lead, if_neg (by omega), if_neg (by omega), if_pos (by omega),
      utf8Scalars_cons (by omega), utf8Step_middle (le_refl 2) hlow hhigh,
      utf8Scalars_cons (by omega),
      utf8Step_last rfl (by dsimp only; omega) (by dsimp only; omega)]
    have hvalue : ((0xE0 + c / 0x1000) % 0x10 * 0x40 + (0x80 + c / 0x40 % 0x40) % 0x40) * 0x40 +
        (0x80 + c % 0x40) % 0x40 = c := by omega
    simp only [hvalue, nil_append, singleton_append]
  · have hlow : (if 0xF0 + c / 0x40000 = 0xF0 then 0x90 else 0x80) ≤ 0x80 + c / 0x1000 % 0x40 := by
      split_ifs <;> omega
    have hhigh : 0x80 + c / 0x1000 % 0x40 ≤ if 0xF0 + c / 0x40000 = 0xF4 then 0x8F else 0xBF := by
      split_ifs <;> omega
    rw [cons_append, cons_append, cons_append, singleton_append,
      utf8Scalars_cons (by omega), hstart, utf8Lead, if_neg (by omega), if_neg (by omega),
      if_neg (by omega), if_pos (by omega), utf8Scalars_cons (by omega),
      utf8Step_middle (by decide : 2 ≤ 3) hlow hhigh, utf8Scalars_cons (by omega),
      utf8Step_middle (le_refl 2) (by dsimp only; omega) (by dsimp only; omega),
      utf8Scalars_cons (by omega),
      utf8Step_last rfl (by dsimp only; omega) (by dsimp only; omega)]
    have hvalue : (((0xF0 + c / 0x40000) % 0x08 * 0x40 + (0x80 + c / 0x1000 % 0x40) % 0x40) * 0x40 +
        (0x80 + c / 0x40 % 0x40) % 0x40) * 0x40 + (0x80 + c % 0x40) % 0x40 = c := by omega
    simp only [hvalue, nil_append, singleton_append]

theorem utf8Scalars_flatMap {cs : List ℕ} (h : ∀ c ∈ cs, IsScalar c) :
    utf8Scalars .start (cs.flatMap utf8Bytes) = cs := by
  induction cs with
  | nil => rfl
  | cons c cs ih =>
    rw [flatMap_cons, utf8Scalars_utf8Bytes (h c mem_cons_self),
      ih fun d hd => h d (mem_cons_of_mem c hd)]

theorem utf16Units_pair {a b : ℕ} (ha : a < 0x400) (hb : b < 0x400) :
    utf16Units (0x10000 + a * 0x400 + b) =
      [UInt16.ofNat (0xD800 + a), UInt16.ofNat (0xDC00 + b)] := by
  have hsub : 0x10000 + a * 0x400 + b - 0x10000 = a * 0x400 + b := by omega
  have hdiv : (a * 0x400 + b) / 0x400 = a := by omega
  have hmod : (a * 0x400 + b) % 0x400 = b := by omega
  unfold utf16Units
  rw [if_neg (by omega), hsub, hdiv, hmod]

/-- The scalar values of a text without unpaired surrogates stand for it. -/
theorem scalarValues_paired {s : JsString} (h : Paired s) :
    (∀ c ∈ scalarValues s, IsScalar c) ∧ (scalarValues s).flatMap utf16Units = s := by
  induction h with
  | nil => exact ⟨fun c hc => absurd hc not_mem_nil, rfl⟩
  | @unit u us hlead htrail h ih =>
    have hscalar : IsScalar u.toNat ∧ utf16Units u.toNat = [u] := by
      have hlt := u.toNat_lt
      refine ⟨?_, ?_⟩
      · by_contra hnot
        unfold IsScalar at hnot
        have hsurrogate : isLead u = true ∨ isTrail u = true := by
          by_cases hu : u.toNat < 0xDC00
          · left
            exact Bool.and_eq_true_iff.mpr ⟨decide_eq_true (show 0xD800 ≤ u.toNat by omega),
              decide_eq_true (show u.toNat ≤ 0xDBFF by omega)⟩
          · right
            exact Bool.and_eq_true_iff.mpr ⟨decide_eq_true (show 0xDC00 ≤ u.toNat by omega),
              decide_eq_true (show u.toNat ≤ 0xDFFF by omega)⟩
        rw [hlead, htrail] at hsurrogate
        exact absurd hsurrogate (by decide)
      · unfold utf16Units
        rw [if_pos (by omega), UInt16.ofNat_toNat]
    have hlone : loneUnit u = u.toNat := by
      have hboth : (isLeadSurrogate u || isTrailSurrogate u) = false :=
        Bool.or_eq_false_iff.mpr ⟨hlead, htrail⟩
      unfold loneUnit
      rw [hboth]
      rfl
    have hvalues : scalarValues (u :: us) = u.toNat :: scalarValues us := by
      cases us with
      | nil => simp only [scalarValues, hlone]
      | cons v us =>
        have hnot : (isLeadSurrogate u && isTrailSurrogate v) = false := by
          rw [show isLeadSurrogate u = false from hlead]
          rfl
        rw [scalarValues, hnot, hlone]
        rfl
    rw [hvalues, flatMap_cons, hscalar.2, ih.2]
    refine ⟨fun c hc => ?_, rfl⟩
    rcases mem_cons.mp hc with rfl | hc
    · exact hscalar.1
    · exact ih.1 c hc
  | @pair u v us hlead htrail h ih =>
    have hu := Bool.and_eq_true_iff.mp hlead
    have hv := Bool.and_eq_true_iff.mp htrail
    have hu₁ : 0xD800 ≤ u.toNat := of_decide_eq_true hu.1
    have hu₂ : u.toNat ≤ 0xDBFF := of_decide_eq_true hu.2
    have hv₁ : 0xDC00 ≤ v.toNat := of_decide_eq_true hv.1
    have hv₂ : v.toNat ≤ 0xDFFF := of_decide_eq_true hv.2
    have hboth : (isLeadSurrogate u && isTrailSurrogate v) = true :=
      Bool.and_eq_true_iff.mpr ⟨hlead, htrail⟩
    rw [scalarValues, if_pos hboth, flatMap_cons, ih.2]
    have hunits := utf16Units_pair (a := u.toNat - 0xD800) (b := v.toNat - 0xDC00) (by omega)
      (by omega)
    rw [Nat.add_sub_cancel' hu₁, Nat.add_sub_cancel' hv₁, UInt16.ofNat_toNat, UInt16.ofNat_toNat]
      at hunits
    rw [hunits]
    refine ⟨fun c hc => ?_, rfl⟩
    rcases mem_cons.mp hc with heq | hc
    · rw [heq]
      exact Or.inr (by omega)
    · exact ih.1 c hc

theorem decodeUtf8_encodeUtf8 {s : JsString} (h : Paired s) (hmark : s.head? ≠ some 0xFEFF) :
    decodeUtf8 (encodeUtf8 s) = s := by
  obtain ⟨hscalars, hunits⟩ := scalarValues_paired h
  unfold decodeUtf8 encodeUtf8
  rw [utf8Scalars_flatMap hscalars]
  dsimp only
  rw [if_neg, hunits]
  intro hhead
  obtain ⟨cs, hcs⟩ : ∃ cs, scalarValues s = 0xFEFF :: cs := head?_eq_some_iff.mp hhead
  rw [← hunits, hcs, flatMap_cons] at hmark
  exact hmark rfl

end TraceJvm
