import Mathlib.Data.List.Basic
import Mathlib.Algebra.Order.Group.Nat

/-! A memory of cells that is read and written in runs, little-endian numbers, and references that
are kept as fragments, so that a reference does not depend on where its object lies. -/
namespace ByteMemory

open List

section Runs

variable {α : Type*}

def write (mem : ℕ → α) (off : ℕ) (items : List α) (a : ℕ) : α :=
  if off ≤ a then (items[a - off]?).getD (mem a) else mem a

def read (mem : ℕ → α) (off n : ℕ) : List α := (List.range n).map fun i => mem (off + i)

def Apart (off n off' n' : ℕ) : Prop := off + n ≤ off' ∨ off' + n' ≤ off

variable {mem mem' : ℕ → α} {items : List α} {off off' n n' i a : ℕ} {x : α}

@[simp] theorem length_read (mem : ℕ → α) (off n : ℕ) : (read mem off n).length = n := by
  simp [read]

theorem write_of_outside (h : a < off ∨ off + items.length ≤ a) :
    write mem off items a = mem a := by
  unfold write
  split
  · have hnone : items[a - off]? = none := getElem?_eq_none (by omega)
    rw [hnone]
    rfl
  · rfl

theorem write_of_inside (h : items[i]? = some x) : write mem off items (off + i) = x := by
  unfold write
  rw [if_pos (Nat.le_add_right off i), Nat.add_sub_cancel_left, h]
  rfl

theorem read_congr (h : ∀ a, off ≤ a → a < off + n → mem a = mem' a) :
    read mem off n = read mem' off n := by
  apply map_congr_left
  intro i hi
  rw [mem_range] at hi
  exact h (off + i) (Nat.le_add_right off i) (by omega)

theorem read_const (x : α) (off n : ℕ) : read (fun _ => x) off n = List.replicate n x := by
  unfold read
  rw [map_const', length_range]

theorem read_write_self : read (write mem off items) off items.length = items := by
  apply ext_getElem?
  intro i
  by_cases hi : i < items.length
  · have hitem : items[i]? = some items[i] := getElem?_eq_getElem hi
    rw [hitem, read, getElem?_map, getElem?_range hi, Option.map_some, write_of_inside hitem]
  · rw [getElem?_eq_none (by rw [length_read]; omega), getElem?_eq_none (by omega)]

theorem read_write_apart (h : Apart off items.length off' n) :
    read (write mem off items) off' n = read mem off' n := by
  apply read_congr
  intro a hlow hup
  apply write_of_outside
  unfold Apart at h
  omega

theorem read_take (h : n ≤ n') : (read mem off n').take n = read mem off n := by
  unfold read
  rw [← map_take, take_range, Nat.min_eq_left h]

theorem read_append (mem : ℕ → α) (off n n' : ℕ) :
    read mem off (n + n') = read mem off n ++ read mem (off + n) n' := by
  unfold read
  rw [range_add, map_append, map_map]
  congr 1
  apply map_congr_left
  intro i _
  show mem (off + (n + i)) = mem (off + n + i)
  rw [Nat.add_assoc]

theorem read_write_front (mem : ℕ → α) (off : ℕ) (items : List α) (n : ℕ) :
    read (write mem off items) off (items.length + n) =
      items ++ read mem (off + items.length) n := by
  rw [read_append, read_write_self, read_write_apart]
  exact Or.inl (Nat.le_refl _)

def writeAll (mem : ℕ → α) (stores : List (ℕ × List α)) : ℕ → α :=
  stores.foldl (fun mem s => write mem s.1 s.2) mem

theorem writeAll_concat (mem : ℕ → α) (stores : List (ℕ × List α)) (s : ℕ × List α) :
    writeAll mem (stores ++ [s]) = write (writeAll mem stores) s.1 s.2 := by
  unfold writeAll
  rw [foldl_append]
  rfl

theorem read_writeAll_apart {stores : List (ℕ × List α)}
    (h : ∀ s ∈ stores, Apart s.1 s.2.length off n) :
    read (writeAll mem stores) off n = read mem off n := by
  induction stores generalizing mem with
  | nil => rfl
  | cons s stores ih =>
    show read (writeAll (write mem s.1 s.2) stores) off n = _
    rw [ih fun t ht => h t (mem_cons_of_mem s ht)]
    exact read_write_apart (h s mem_cons_self)

theorem read_writeAll_mem {before after : List (ℕ × List α)}
    (h : ∀ s ∈ after, Apart s.1 s.2.length off items.length) :
    read (writeAll mem (before ++ (off, items) :: after)) off items.length = items := by
  unfold writeAll
  rw [foldl_append, foldl_cons]
  show read (writeAll (write _ off items) after) off items.length = items
  rw [read_writeAll_apart h, read_write_self]

end Runs

/-! ### Numbers -/

/-- The last `w` digits of a number to the base 256, the least significant first. -/
def lowBytes : ℕ → ℕ → List UInt8
  | 0, _ => []
  | w + 1, n => UInt8.ofNat n :: lowBytes w (n / 256)

def number : List UInt8 → ℕ
  | [] => 0
  | b :: bs => b.toNat + 256 * number bs

@[simp] theorem length_lowBytes (w n : ℕ) : (lowBytes w n).length = w := by
  induction w generalizing n with
  | zero => rfl
  | succ w ih => simp [lowBytes, ih]

theorem lowBytes_mod (w n : ℕ) : lowBytes w (n % 256 ^ w) = lowBytes w n := by
  induction w generalizing n with
  | zero => rfl
  | succ w ih =>
    have hpow : 256 ^ (w + 1) = 256 * 256 ^ w := Nat.pow_succ'
    rw [lowBytes, lowBytes, hpow, Nat.mod_mul_right_div_self, ih]
    congr 1
    apply UInt8.toNat_inj.1
    rw [UInt8.toNat_ofNat', UInt8.toNat_ofNat']
    exact Nat.mod_mul_right_mod n 256 (256 ^ w)

theorem lowBytes_add (v w n : ℕ) :
    lowBytes (v + w) n = lowBytes v n ++ lowBytes w (n / 256 ^ v) := by
  induction v generalizing n with
  | zero => simp [lowBytes]
  | succ v ih =>
    have hpow : 256 ^ (v + 1) = 256 * 256 ^ v := Nat.pow_succ'
    rw [Nat.add_right_comm, lowBytes, lowBytes, ih, hpow, Nat.div_div_eq_div_mul]
    rfl

theorem number_lowBytes (w n : ℕ) : number (lowBytes w n) = n % 256 ^ w := by
  induction w generalizing n with
  | zero => simp [lowBytes, number, Nat.mod_one]
  | succ w ih =>
    have hpow : 256 ^ (w + 1) = 256 * 256 ^ w := Nat.pow_succ'
    rw [lowBytes, number, ih, UInt8.toNat_ofNat', hpow]
    exact Nat.mod_mul.symm

/-! ### Cells -/

inductive MemByte (ρ : Type*) where
  | byte (b : UInt8)
  | fragment (ref : ρ) (index : ℕ)
  deriving DecidableEq

namespace MemByte

variable {ρ : Type*}

def toByte : MemByte ρ → Option UInt8
  | byte b => some b
  | fragment _ _ => none

/-- A number in `w` cells. -/
def encodeNumber (w n : ℕ) : List (MemByte ρ) := (lowBytes w n).map byte

def decodeNumber (cells : List (MemByte ρ)) : Option ℕ := (cells.mapM toByte).map number

/-- A reference in `w` cells; null is zero. -/
def encodeReference (w : ℕ) : Option ρ → List (MemByte ρ)
  | none => List.replicate w (byte 0)
  | some r => (List.range w).map (fragment r)

def decodeReference [DecidableEq ρ] (cells : List (MemByte ρ)) : Option (Option ρ) :=
  if cells = encodeReference cells.length none then some none
  else
    match cells with
    | fragment r i :: cells =>
      if fragment r i :: cells = encodeReference (cells.length + 1) (some r) then some (some r)
      else none
    | _ => none

@[simp] theorem length_encodeNumber (w n : ℕ) :
    (encodeNumber w n : List (MemByte ρ)).length = w := by
  simp [encodeNumber]

@[simp] theorem length_encodeReference (w : ℕ) (r : Option ρ) :
    (encodeReference w r).length = w := by
  cases r <;> simp [encodeReference]

theorem encodeNumber_mod (w n : ℕ) :
    (encodeNumber w (n % 256 ^ w) : List (MemByte ρ)) = encodeNumber w n := by
  unfold encodeNumber
  rw [lowBytes_mod]

theorem encodeNumber_add (v w n : ℕ) : (encodeNumber (v + w) n : List (MemByte ρ)) =
    encodeNumber v n ++ encodeNumber w (n / 256 ^ v) := by
  unfold encodeNumber
  rw [lowBytes_add, map_append]

theorem low_high (a : ℕ) {k r : ℕ} (h : r < k) : (a * k + r) % k = r ∧ (a * k + r) / k = a := by
  constructor
  · rw [Nat.mul_comm, Nat.mul_add_mod, Nat.mod_eq_of_lt h]
  · rw [Nat.mul_comm, Nat.mul_add_div (by omega), Nat.div_eq_of_lt h, Nat.add_zero]

theorem read_write_low {mem : ℕ → MemByte ρ} {off v w n : ℕ}
    (h : read mem off (v + w) = encodeNumber (v + w) n) (x : ℕ) :
    read (write mem off (encodeNumber v x)) off (v + w) =
      encodeNumber (v + w) (n / 256 ^ v * 256 ^ v + x % 256 ^ v) := by
  obtain ⟨hmod, hdiv⟩ := low_high (n / 256 ^ v) (Nat.mod_lt x (Nat.pow_pos (show 0 < 256 by omega)))
  rw [read_append, encodeNumber_add] at h
  have hrest := (append_inj h (by rw [length_read, length_encodeNumber])).2
  have hfront := read_write_front mem off (encodeNumber v x) w
  rw [length_encodeNumber, hrest] at hfront
  rw [hfront, encodeNumber_add, hdiv, ← encodeNumber_mod v (_ + _), hmod, encodeNumber_mod]

theorem mapM_toByte (bs : List UInt8) :
    (bs.map byte : List (MemByte ρ)).mapM toByte = some bs := by
  induction bs with
  | nil => rfl
  | cons b bs ih =>
    rw [map_cons, mapM_cons, ih]
    rfl

theorem decodeNumber_map (bs : List UInt8) :
    decodeNumber (bs.map byte : List (MemByte ρ)) = some (number bs) := by
  unfold decodeNumber
  rw [mapM_toByte]
  rfl

theorem decodeNumber_encodeNumber (w n : ℕ) :
    decodeNumber (encodeNumber w n : List (MemByte ρ)) = some (n % 256 ^ w) := by
  rw [encodeNumber, decodeNumber_map, number_lowBytes]

theorem decodeReference_encodeReference [DecidableEq ρ] {w : ℕ} (hw : 0 < w) (r : Option ρ) :
    decodeReference (encodeReference w r) = some r := by
  obtain ⟨w, rfl⟩ : ∃ v, w = v + 1 := ⟨w - 1, by omega⟩
  cases r with
  | none =>
    unfold decodeReference
    rw [if_pos (by rw [length_encodeReference])]
  | some r =>
    have hcells : encodeReference (w + 1) (some r) =
        fragment r 0 :: (List.range w).map fun i => fragment r (i + 1) := by
      rw [encodeReference, range_succ_eq_map, map_cons, map_map]
      rfl
    unfold decodeReference
    rw [length_encodeReference, if_neg]
    · rw [hcells]
      dsimp only
      rw [length_map, length_range, if_pos hcells.symm]
    · rw [hcells]
      exact fun h => absurd (cons.inj h).1 nofun

end MemByte

end ByteMemory
