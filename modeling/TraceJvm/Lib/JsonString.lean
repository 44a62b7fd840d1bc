import Mathlib.Data.List.Basic
import Mathlib.Tactic.IntervalCases

/-! String literals of JSON over UTF-16 code units: the reader of ECMA-404, and the escapes that
writers use. -/
namespace JsonString

open List

def hexUnit (n : ℕ) : UInt16 := UInt16.ofNat (if n < 10 then 0x30 + n else 0x57 + n)

def hexValue (u : UInt16) : Option ℕ :=
  if 0x30 ≤ u.toNat ∧ u.toNat ≤ 0x39 then some (u.toNat - 0x30)
  else if 0x61 ≤ u.toNat ∧ u.toNat ≤ 0x66 then some (u.toNat - 0x57)
  else if 0x41 ≤ u.toNat ∧ u.toNat ≤ 0x46 then some (u.toNat - 0x37)
  else none

def hexUnits (n : ℕ) : List UInt16 :=
  [hexUnit (n / 4096 % 16), hexUnit (n / 256 % 16), hexUnit (n / 16 % 16), hexUnit (n % 16)]

/-- What the characters after a backslash stand for, other than `u`. -/
def shortEscape (u : UInt16) : Option UInt16 :=
  if u = 0x22 then some 0x22
  else if u = 0x5C then some 0x5C
  else if u = 0x2F then some 0x2F
  else if u = 0x62 then some 0x08
  else if u = 0x66 then some 0x0C
  else if u = 0x6E then some 0x0A
  else if u = 0x72 then some 0x0D
  else if u = 0x74 then some 0x09
  else none

def unitOfHex (a b c d : UInt16) : Option UInt16 := do
  let a ← hexValue a
  let b ← hexValue b
  let c ← hexValue c
  let d ← hexValue d
  return UInt16.ofNat (a * 4096 + b * 256 + c * 16 + d)

/-- Reads a literal after its opening quote: its characters, and the text after its closing
quote. -/
def readString : List UInt16 → Option (List UInt16 × List UInt16)
  | [] => none
  | u :: text =>
    if u = 0x22 then some ([], text)
    else if u = 0x5C then
      match text with
      | [] => none
      | e :: text =>
        if e = 0x75 then
          match text with
          | a :: b :: c :: d :: text =>
            (unitOfHex a b c d).bind fun v => (readString text).map fun r => (v :: r.1, r.2)
          | _ => none
        else (shortEscape e).bind fun v => (readString text).map fun r => (v :: r.1, r.2)
    else if u < 0x20 then none
    else (readString text).map fun r => (u :: r.1, r.2)

def Reads (text : List UInt16) (u : UInt16) : Prop :=
  ∀ rest, readString (text ++ rest) = (readString rest).map fun r => (u :: r.1, r.2)

theorem reads_plain {u : UInt16} (hquote : u ≠ 0x22) (hback : u ≠ 0x5C) (hcontrol : ¬ u < 0x20) :
    Reads [u] u := by
  intro rest
  show readString (u :: rest) = _
  rw [readString.eq_def]
  simp only [if_neg hquote, if_neg hback, if_neg hcontrol]

theorem reads_short {e u : UInt16} (h : shortEscape e = some u) : Reads [0x5C, e] u := by
  intro rest
  have hu : e ≠ 0x75 := by
    rintro rfl
    simp [shortEscape] at h
  have hquote : ¬ (0x5C : UInt16) = 0x22 := by decide
  show readString (0x5C :: e :: rest) = _
  rw [readString.eq_def]
  simp only [if_neg hquote, if_true, if_neg hu, h, Option.bind_some]

theorem hexValue_hexUnit {n : ℕ} (h : n < 16) : hexValue (hexUnit n) = some n := by
  interval_cases n <;> decide

theorem reads_unicode (u : UInt16) : Reads (0x5C :: 0x75 :: hexUnits u.toNat) u := by
  intro rest
  have hunit : unitOfHex (hexUnit (u.toNat / 4096 % 16)) (hexUnit (u.toNat / 256 % 16))
      (hexUnit (u.toNat / 16 % 16)) (hexUnit (u.toNat % 16)) = some u := by
    have hlt := u.toNat_lt
    have hnumber : u.toNat / 4096 % 16 * 4096 + u.toNat / 256 % 16 * 256 + u.toNat / 16 % 16 * 16 +
        u.toNat % 16 = u.toNat := by omega
    unfold unitOfHex
    rw [hexValue_hexUnit (Nat.mod_lt _ (by decide)), hexValue_hexUnit (Nat.mod_lt _ (by decide)),
      hexValue_hexUnit (Nat.mod_lt _ (by decide)), hexValue_hexUnit (Nat.mod_lt _ (by decide))]
    show some (UInt16.ofNat _) = some u
    rw [hnumber, UInt16.ofNat_toNat]
  have hquote : ¬ (0x5C : UInt16) = 0x22 := by decide
  show readString (0x5C :: 0x75 :: (hexUnits u.toNat ++ rest)) = _
  rw [readString.eq_def]
  simp only [if_neg hquote, if_true, hexUnits, cons_append, nil_append, hunit,
    Option.bind_some]

theorem readString_flatMap {β : Type*} (write : β → List UInt16) (value : β → UInt16) {us : List β}
    (h : ∀ u ∈ us, Reads (write u) (value u)) (rest : List UInt16) :
    readString (us.flatMap write ++ 0x22 :: rest) = some (us.map value, rest) := by
  induction us with
  | nil =>
    show readString (0x22 :: rest) = _
    rw [readString.eq_def]
    exact if_pos rfl
  | cons u us ih =>
    rw [flatMap_cons, append_assoc, h u mem_cons_self, ih fun v hv =>
      h v (mem_cons_of_mem _ hv)]
    rfl

def parseLiteral : List UInt16 → Option (List UInt16)
  | [] => none
  | u :: text =>
    if u = 0x22 then
      match readString text with
      | some (value, []) => some value
      | _ => none
    else none

theorem parseLiteral_flatMap {β : Type*} (write : β → List UInt16) (value : β → UInt16)
    {us : List β} (h : ∀ u ∈ us, Reads (write u) (value u)) :
    parseLiteral (0x22 :: us.flatMap write ++ [0x22]) = some (us.map value) := by
  have hread := readString_flatMap write value h []
  simp only [parseLiteral, cons_append, if_true, hread]

end JsonString
