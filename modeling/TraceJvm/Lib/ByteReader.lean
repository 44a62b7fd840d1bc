import Mathlib.Algebra.Order.Ring.Int
import Mathlib.Data.List.Induction

/-! Big-endian integers of a fixed number of bytes, and parsers that consume a byte string from the
front or fail. -/
namespace ByteReader

open List

/-- The last `w` digits of a number to the base 256, most significant first. -/
def bytes : ℕ → ℕ → List UInt8
  | 0, _ => []
  | w + 1, n => bytes w (n / 256) ++ [UInt8.ofNat n]

def value (bs : List UInt8) : ℕ := bs.foldl (fun n b => n * 256 + b.toNat) 0

/-- Two's complement with `w` bytes. -/
def signed (w n : ℕ) : ℤ := if 2 * n < 256 ^ w then n else n - 256 ^ w

def signedBytes (w : ℕ) (v : ℤ) : List UInt8 := bytes w (v % 256 ^ w).toNat

@[simp] theorem length_bytes (w n : ℕ) : (bytes w n).length = w := by
  induction w generalizing n with
  | zero => rfl
  | succ w ih => simp [bytes, ih]

@[simp] theorem length_signedBytes (w : ℕ) (v : ℤ) : (signedBytes w v).length = w := length_bytes _ _

theorem value_append_singleton (bs : List UInt8) (b : UInt8) :
    value (bs ++ [b]) = value bs * 256 + b.toNat := by
  simp [value]

theorem value_lt (bs : List UInt8) : value bs < 256 ^ bs.length := by
  induction bs using List.reverseRecOn with
  | nil => simp [value]
  | append_singleton bs b ih =>
    have hb := b.toNat_lt
    rw [value_append_singleton, length_append, length_singleton, Nat.pow_succ]
    omega

theorem bytes_value (bs : List UInt8) : bytes bs.length (value bs) = bs := by
  induction bs using List.reverseRecOn with
  | nil => rfl
  | append_singleton bs b ih =>
    have hb := b.toNat_lt
    rw [value_append_singleton, length_append, length_singleton, bytes]
    have hdiv : (value bs * 256 + b.toNat) / 256 = value bs := by omega
    have hlast : UInt8.ofNat (value bs * 256 + b.toNat) = b := by
      apply UInt8.toNat_inj.1
      rw [UInt8.toNat_ofNat']
      omega
    rw [hdiv, hlast, ih]

theorem signedBytes_signed {w n : ℕ} (h : n < 256 ^ w) : signedBytes w (signed w n) = bytes w n := by
  have hcast : ((256 ^ w : ℕ) : ℤ) = 256 ^ w := by simp
  have hmod : signed w n % 256 ^ w = (n : ℤ) := by
    rw [← hcast]
    unfold signed
    split
    · exact Int.emod_eq_of_lt (by omega) (by omega)
    · rw [← hcast, Int.sub_emod_right]
      exact Int.emod_eq_of_lt (by omega) (by omega)
  rw [signedBytes, hmod]
  rfl

/-- The range of two's complement with `w` bytes. -/
def FitsSigned (w : ℕ) (v : ℤ) : Prop := -(256 ^ w) ≤ 2 * v ∧ 2 * v < 256 ^ w

theorem signed_fits {w n : ℕ} (h : n < 256 ^ w) : FitsSigned w (signed w n) := by
  have hcast : ((256 ^ w : ℕ) : ℤ) = 256 ^ w := by simp
  unfold FitsSigned signed
  rw [← hcast]
  split <;> omega

abbrev Parser (ε α : Type) := StateT (List UInt8) (Except ε) α

namespace Parser

variable {ε α β : Type}

/-- Reads an unsigned number of `w` bytes, or fails with `e`. -/
def next (w : ℕ) (e : ε) : Parser ε ℕ := fun bs =>
  if bs.length < w then .error e else .ok (value (bs.take w), bs.drop w)

/-- Reads a number of `w` bytes in two's complement. -/
def nextSigned (w : ℕ) (e : ε) : Parser ε ℤ := do
  let n ← next w e
  pure (signed w n)

def ofExcept (x : Except ε α) : Parser ε α := fun bs => x.map fun a => (a, bs)

/-- Splits off the next `n` bytes, or fails with `e`. -/
def slice (n : ℕ) (e : ε) : Parser ε (List UInt8) := fun bs =>
  if bs.length < n then .error e else .ok (bs.take n, bs.drop n)

variable {bs : List UInt8}

theorem bind_eq_ok {x : Parser ε α} {f : α → Parser ε β} {r : β × List UInt8} :
    (x >>= f) bs = .ok r ↔ ∃ a rest, x bs = .ok (a, rest) ∧ f a rest = .ok r := by
  show Except.bind (x bs) (fun p => f p.1 p.2) = _ ↔ _
  cases x bs with
  | error e => simp [Except.bind]
  | ok p =>
    obtain ⟨a, rest⟩ := p
    simp [Except.bind]

theorem pure_eq_ok {a : α} {r : α × List UInt8} :
    (pure a : Parser ε α) bs = .ok r ↔ r = (a, bs) := by
  show Except.ok (a, bs) = .ok r ↔ _
  rw [Except.ok.injEq]
  exact eq_comm

theorem throw_ne_ok {e : ε} {r : α × List UInt8} : (throw e : Parser ε α) bs ≠ .ok r := by
  show Except.error e ≠ .ok r
  simp

theorem ofExcept_eq_ok {x : Except ε α} {r : α × List UInt8} :
    ofExcept x bs = .ok r ↔ x = .ok r.1 ∧ bs = r.2 := by
  obtain ⟨a, rest⟩ := r
  cases x with
  | error e | ok b => simp [ofExcept, Except.map]

theorem slice_ok {n : ℕ} {e : ε} {bs front rest : List UInt8}
    (h : slice n e bs = .ok (front, rest)) : bs = front ++ rest ∧ front.length = n := by
  unfold slice at h
  split at h
  · simp at h
  · rename_i hlen
    cases h
    refine ⟨(take_append_drop n bs).symm, ?_⟩
    rw [length_take]
    omega

theorem next_ok {w : ℕ} {e : ε} {bs rest : List UInt8} {n : ℕ} (h : next w e bs = .ok (n, rest)) :
    bs = bytes w n ++ rest ∧ n < 256 ^ w := by
  unfold next at h
  split at h
  · simp at h
  · rename_i hlen
    cases h
    have hw : (bs.take w).length = w := by
      rw [length_take]
      omega
    have hbytes := bytes_value (bs.take w)
    have hlt := value_lt (bs.take w)
    rw [hw] at hbytes hlt
    exact ⟨by rw [hbytes, take_append_drop], hlt⟩

theorem nextSigned_ok {w : ℕ} {e : ε} {bs rest : List UInt8} {v : ℤ}
    (h : nextSigned w e bs = .ok (v, rest)) : bs = signedBytes w v ++ rest ∧ FitsSigned w v := by
  obtain ⟨n, rest', hn, hv⟩ := bind_eq_ok.1 h
  cases pure_eq_ok.1 hv
  obtain ⟨hbs, hlt⟩ := next_ok hn
  rw [signedBytes_signed hlt]
  exact ⟨hbs, signed_fits hlt⟩

end Parser

end ByteReader
