import Mathlib.Data.List.Basic
import Mathlib.Tactic.IntervalCases

/-! The base64 encoding of RFC 4648, with the forgiving decoder of web browsers. -/
namespace Base64

open List

def alphabet (n : ℕ) : UInt16 :=
  UInt16.ofNat (if n < 26 then 0x41 + n else if n < 52 then 0x47 + n
    else if n < 62 then n - 4 else if n = 62 then 0x2B else 0x2F)

def alphabetValue (u : UInt16) : Option ℕ :=
  let n := u.toNat
  if 0x41 ≤ n ∧ n ≤ 0x5A then some (n - 0x41)
  else if 0x61 ≤ n ∧ n ≤ 0x7A then some (n - 0x47)
  else if 0x30 ≤ n ∧ n ≤ 0x39 then some (n + 4)
  else if n = 0x2B then some 62
  else if n = 0x2F then some 63
  else none

def digits : List UInt8 → List ℕ
  | [] => []
  | [a] => [a.toNat / 4, a.toNat % 4 * 16]
  | [a, b] => [a.toNat / 4, a.toNat % 4 * 16 + b.toNat / 16, b.toNat % 16 * 4]
  | a :: b :: c :: bytes =>
    a.toNat / 4 :: (a.toNat % 4 * 16 + b.toNat / 16) :: (b.toNat % 16 * 4 + c.toNat / 64) ::
      c.toNat % 64 :: digits bytes

def bytesOf : List ℕ → Option (List UInt8)
  | [] => some []
  | [_] => none
  | [a, b] => some [UInt8.ofNat (a * 4 + b / 16)]
  | [a, b, c] => some [UInt8.ofNat (a * 4 + b / 16), UInt8.ofNat (b % 16 * 16 + c / 4)]
  | a :: b :: c :: d :: rest =>
    (bytesOf rest).map fun bytes => UInt8.ofNat (a * 4 + b / 16) ::
      UInt8.ofNat (b % 16 * 16 + c / 4) :: UInt8.ofNat (c % 4 * 64 + d) :: bytes

def padding (n : ℕ) : ℕ := (3 - n % 3) % 3

/-- `btoa` of a string of characters below 256. -/
def btoa (bytes : List UInt8) : List UInt16 :=
  (digits bytes).map alphabet ++ List.replicate (padding bytes.length) 0x3D

def isWhitespace (u : UInt16) : Bool :=
  u = 0x09 || u = 0x0A || u = 0x0C || u = 0x0D || u = 0x20

def removePadding (us : List UInt16) : List UInt16 :=
  if us.length % 4 = 0 then
    match us.reverse with
    | u :: v :: rest =>
      if u = 0x3D then (if v = 0x3D then rest.reverse else (v :: rest).reverse) else us
    | _ => us
  else us

/-- `atob`; `none` is the exception. -/
def atob (us : List UInt16) : Option (List UInt8) :=
  ((removePadding (us.filter fun u => !isWhitespace u)).mapM alphabetValue).bind bytesOf

theorem alphabetValue_alphabet {n : ℕ} (h : n < 64) : alphabetValue (alphabet n) = some n := by
  interval_cases n <;> decide

theorem alphabet_plain {n : ℕ} (h : n < 64) :
    isWhitespace (alphabet n) = false ∧ alphabet n ≠ 0x3D := by
  interval_cases n <;> decide

theorem digits_lt (bytes : List UInt8) : ∀ n ∈ digits bytes, n < 64 := by
  induction bytes using digits.induct with
  | case1 => simp [digits]
  | case2 a =>
    have ha := a.toNat_lt
    intro n hn
    simp only [digits, mem_cons, not_mem_nil, or_false] at hn
    omega
  | case3 a b =>
    have ha := a.toNat_lt
    have hb := b.toNat_lt
    intro n hn
    simp only [digits, mem_cons, not_mem_nil, or_false] at hn
    omega
  | case4 a b c bytes ih =>
    have ha := a.toNat_lt
    have hb := b.toNat_lt
    have hc := c.toNat_lt
    intro n hn
    simp only [digits, mem_cons] at hn
    rcases hn with h | h | h | h | h
    · omega
    · omega
    · omega
    · omega
    · exact ih n h

theorem length_digits (bytes : List UInt8) :
    ((digits bytes).length + padding bytes.length) % 4 = 0 := by
  induction bytes using digits.induct with
  | case1 => rfl
  | case2 a => exact (by decide : (2 + padding 1) % 4 = 0)
  | case3 a b => exact (by decide : (3 + padding 2) % 4 = 0)
  | case4 a b c bytes ih =>
    have hpad : padding (a :: b :: c :: bytes).length = padding bytes.length := by
      unfold padding
      rw [length_cons, length_cons, length_cons]
      omega
    rw [hpad]
    simp only [digits, length_cons]
    omega

theorem ofNat_of_eq {n : ℕ} {b : UInt8} (h : n = b.toNat) : UInt8.ofNat n = b := by
  rw [h, UInt8.ofNat_toNat]

theorem bytesOf_digits (bytes : List UInt8) : bytesOf (digits bytes) = some bytes := by
  induction bytes using digits.induct with
  | case1 => rfl
  | case2 a =>
    have ha := a.toNat_lt
    simp only [digits, bytesOf]
    rw [ofNat_of_eq (by omega : _ = a.toNat)]
  | case3 a b =>
    have ha := a.toNat_lt
    have hb := b.toNat_lt
    simp only [digits, bytesOf]
    rw [ofNat_of_eq (by omega : _ = a.toNat), ofNat_of_eq (by omega : _ = b.toNat)]
  | case4 a b c bytes ih =>
    have ha := a.toNat_lt
    have hb := b.toNat_lt
    have hc := c.toNat_lt
    simp only [digits, bytesOf, ih, Option.map_some]
    rw [ofNat_of_eq (by omega : _ = a.toNat), ofNat_of_eq (by omega : _ = b.toNat),
      ofNat_of_eq (by omega : _ = c.toNat)]

theorem padding_lt (n : ℕ) : padding n < 3 := Nat.mod_lt _ (by decide)

/-- The padding is taken off again. -/
theorem removePadding_append {us : List UInt16} {k : ℕ} (hplain : ∀ u ∈ us, u ≠ 0x3D)
    (hk : k < 3) (hlength : (us.length + k) % 4 = 0) :
    removePadding (us ++ List.replicate k 0x3D) = us := by
  unfold removePadding
  rw [if_pos (by rw [length_append, length_replicate]; exact hlength),
    reverse_append, reverse_replicate]
  have hrev : ∀ u ∈ us.reverse, u ≠ 0x3D := fun u hu => hplain u (mem_reverse.mp hu)
  have hback : us = us.reverse.reverse := (reverse_reverse us).symm
  generalize us.reverse = vs at hrev hback
  subst hback
  interval_cases k
  · cases vs with
    | nil => rfl
    | cons u vs =>
      have hu : u ≠ 0x3D := hrev u mem_cons_self
      cases vs with
      | nil => simp
      | cons v vs => simp [hu]
  · cases vs with
    | nil => exact absurd hlength (by decide)
    | cons u vs =>
      have hu : u ≠ 0x3D := hrev u mem_cons_self
      simp [hu]
  · rfl

theorem mapM_alphabetValue {ns : List ℕ} (h : ∀ n ∈ ns, n < 64) :
    (ns.map alphabet).mapM alphabetValue = some ns := by
  induction ns with
  | nil => rfl
  | cons n ns ih =>
    rw [map_cons, mapM_cons, alphabetValue_alphabet (h n mem_cons_self),
      ih fun m hm => h m (mem_cons_of_mem n hm)]
    rfl

theorem atob_btoa (bytes : List UInt8) : atob (btoa bytes) = some bytes := by
  have hlt := digits_lt bytes
  have hplain : ∀ u ∈ (digits bytes).map alphabet, isWhitespace u = false ∧ u ≠ 0x3D := by
    intro u hu
    obtain ⟨n, hn, rfl⟩ := mem_map.mp hu
    exact alphabet_plain (hlt n hn)
  have hfilter : (btoa bytes).filter (fun u => !isWhitespace u) = btoa bytes := by
    apply filter_eq_self.mpr
    intro u hu
    rcases mem_append.mp hu with h | h
    · rw [(hplain u h).1]
      rfl
    · rw [(mem_replicate.mp h).2]
      decide
  unfold atob
  rw [hfilter, btoa, removePadding_append (fun u hu => (hplain u hu).2) (padding_lt _)
    (by rw [length_map]; exact length_digits bytes), mapM_alphabetValue hlt]
  exact bytesOf_digits bytes

end Base64
