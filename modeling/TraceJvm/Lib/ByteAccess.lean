import TraceJvm.Lib.ByteReader

/-! Programs that read a byte string at offsets they have computed. To read outside of it is a
fault, which no program may reach. -/
namespace ByteAccess

open List

inductive Access (ε α : Type) where
  /-- A byte outside the string has been read. -/
  | fault
  | error (e : ε)
  | ok (a : α)

variable {ε α β : Type}

namespace Access

def bind (x : Access ε α) (f : α → Access ε β) : Access ε β :=
  match x with
  | .fault => .fault
  | .error e => .error e
  | .ok a => f a

instance : Monad (Access ε) where
  pure := .ok
  bind := Access.bind

def mapError {δ : Type} (f : ε → δ) : Access ε α → Access δ α
  | .fault => .fault
  | .error e => .error (f e)
  | .ok a => .ok a

def Ensures (x : Access ε α) (onError : ε → Prop) (onOk : α → Prop) : Prop :=
  match x with
  | .fault => False
  | .error e => onError e
  | .ok a => onOk a

variable {x : Access ε α} {onError : ε → Prop} {onOk : α → Prop}

theorem Ensures.bind {f : α → Access ε β} {onOk' : β → Prop} (h : x.Ensures onError onOk)
    (hf : ∀ a, onOk a → (f a).Ensures onError onOk') : (x >>= f).Ensures onError onOk' := by
  cases x with
  | fault => exact h
  | error e => exact h
  | ok a => exact hf a h

theorem Ensures.mono {onError' : ε → Prop} {onOk' : α → Prop} (h : x.Ensures onError onOk)
    (he : ∀ e, onError e → onError' e) (ha : ∀ a, onOk a → onOk' a) :
    x.Ensures onError' onOk' := by
  cases x with
  | fault => exact h
  | error e => exact he e h
  | ok a => exact ha a h

theorem Ensures.mapError {δ : Type} {f : ε → δ} {onError' : δ → Prop}
    (h : x.Ensures onError onOk) (he : ∀ e, onError e → onError' (f e)) :
    (x.mapError f).Ensures onError' onOk := by
  cases x with
  | fault => exact h
  | error e => exact he e h
  | ok a => exact h

end Access

open Access

/-- The `len` bytes from an offset. -/
def slice (bs : List UInt8) (off len : ℕ) : List UInt8 := (bs.drop off).take len

def read (bs : List UInt8) (off len : ℕ) : Access ε (List UInt8) :=
  if off + len ≤ bs.length then .ok (slice bs off len) else .fault

def failIf (c : Prop) [Decidable c] (e : ε) : Access ε Unit := if c then .error e else .ok ()

def littleEndian (bs : List UInt8) : ℕ := ByteReader.value bs.reverse

/-- The number of `w` bytes at an offset. -/
def field (bs : List UInt8) (off w : ℕ) : ℕ := littleEndian (slice bs off w)

theorem slice_length_le (bs : List UInt8) (off len : ℕ) : (slice bs off len).length ≤ len :=
  length_take_le _ _

theorem slice_length (bs : List UInt8) (off len : ℕ) (h : off + len ≤ bs.length) :
    (slice bs off len).length = len := by
  unfold slice
  rw [length_take, length_drop]
  omega

theorem littleEndian_lt (bs : List UInt8) : littleEndian bs < 256 ^ bs.length := by
  have h := ByteReader.value_lt bs.reverse
  rw [length_reverse] at h
  exact h

theorem field_lt (bs : List UInt8) (off w : ℕ) : field bs off w < 256 ^ w :=
  Nat.lt_of_lt_of_le (littleEndian_lt _) (Nat.pow_le_pow_right (by omega) (slice_length_le _ _ _))

theorem slice_slice (bs : List UInt8) (off : ℕ) {len i w : ℕ} (h : i + w ≤ len) :
    slice (slice bs off len) i w = slice bs (off + i) w := by
  unfold slice
  rw [drop_take, drop_drop, take_take, Nat.min_eq_left]
  omega

theorem field_slice (bs : List UInt8) (off : ℕ) {len i w : ℕ} (h : i + w ≤ len) :
    field (slice bs off len) i w = field bs (off + i) w := by
  unfold field
  rw [slice_slice bs off h]

theorem read_ensures {bs : List UInt8} {off len : ℕ} {onError : ε → Prop}
    (h : off + len ≤ bs.length) :
    (read bs off len : Access ε (List UInt8)).Ensures onError (· = slice bs off len) := by
  unfold read
  rw [if_pos h]
  rfl

theorem Access.Ensures.failIf {c : Prop} [Decidable c] {e : ε} {f : Unit → Access ε β}
    {onOk : β → Prop} (h : ¬ c → (f ()).Ensures (fun _ => True) onOk) :
    (failIf c e >>= f).Ensures (fun _ => True) onOk := by
  unfold ByteAccess.failIf
  by_cases hc : c
  · rw [if_pos hc]
    trivial
  · rw [if_neg hc]
    exact h hc

end ByteAccess
