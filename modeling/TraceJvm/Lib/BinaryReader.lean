import Mathlib.Control.Basic
import Mathlib.Data.Int.Notation
import Mathlib.Data.List.Basic

/-! Readers of a binary format whose numbers are in LEB128 and whose vectors and sections begin with
their length. -/
namespace BinaryReader

open List

abbrev Reader := StateT (List UInt8) Option

def byte : Reader UInt8
  | [] => none
  | b :: rest => some (b, rest)

def expect (bytes : List UInt8) : Reader Unit := fun input =>
  if bytes <+: input then some ((), input.drop bytes.length) else none

def unsigned : Reader ℕ
  | [] => none
  | b :: rest =>
    if b.toNat < 128 then some (b.toNat, rest)
    else (unsigned rest).map fun r => (r.1 * 128 + (b.toNat - 128), r.2)

def signed : Reader ℤ
  | [] => none
  | b :: rest =>
    let n : ℤ := b.toNat
    if n < 64 then some (n, rest)
    else if n < 128 then some (n - 128, rest)
    else (signed rest).map fun r => (r.1 * 128 + (n - 128), r.2)

variable {α β : Type}

def pair (p : Reader α) (q : Reader β) : Reader (α × β) := Prod.mk <$> p <*> q

def times (p : Reader α) : ℕ → Reader (List α)
  | 0 => pure []
  | n + 1 => cons <$> p <*> times p n

/-- A number, and as many items. -/
def vector (p : Reader α) : Reader (List α) := unsigned >>= times p

/-- A number, and something that takes as many bytes. -/
def sized (p : Reader α) : Reader α := do
  match p (← vector byte) with
  | some (a, []) => pure a
  | _ => failure

/-- The bytes are read as `a`, whatever follows them. -/
def Reads (p : Reader α) (bytes : List UInt8) (a : α) : Prop :=
  ∀ rest, p (bytes ++ rest) = some (a, rest)

namespace Reads

variable {p : Reader α} {q : Reader β} {bs cs count : List UInt8} {a : α} {b : β}

theorem bind {q : α → Reader β} (h : Reads p bs a) (h' : Reads (q a) cs b) :
    Reads (p >>= q) (bs ++ cs) b := by
  intro rest
  change (p (bs ++ cs ++ rest)).bind _ = _
  rw [append_assoc, h]
  exact h' rest

theorem map (f : α → β) (h : Reads p bs a) : Reads (f <$> p) bs (f a) := by
  intro rest
  change (p (bs ++ rest)).bind _ = _
  rw [h]
  rfl

theorem seq {f : Reader (α → β)} {g : α → β} (h : Reads f bs g) (h' : Reads p cs a) :
    Reads (f <*> p) (bs ++ cs) (g a) := by
  rw [seq_eq_bind_map]
  exact h.bind (h'.map g)

theorem pair (h : Reads p bs a) (h' : Reads q cs b) : Reads (pair p q) (bs ++ cs) (a, b) :=
  (h.map Prod.mk).seq h'

theorem seqRight (h : Reads p bs a) (h' : Reads q cs b) : Reads (p *> q) (bs ++ cs) b := by
  rw [seqRight_eq_bind]
  exact h.bind h'

theorem expected (bs : List UInt8) : Reads (expect bs) bs () := by
  intro rest
  rw [expect, if_pos (prefix_append bs rest), drop_left]

theorem times {f : β → List UInt8} {g : β → α} {as : List β}
    (h : ∀ a ∈ as, Reads p (f a) (g a)) :
    Reads (times p as.length) (as.flatMap f) (as.map g) := by
  induction as with
  | nil => exact fun _ => rfl
  | cons a as ih =>
    obtain ⟨ha, has⟩ := forall_mem_cons.mp h
    exact (ha.map cons).seq (ih has)

theorem vector {f : β → List UInt8} {g : β → α} {as : List β}
    (hcount : Reads unsigned count as.length) (h : ∀ a ∈ as, Reads p (f a) (g a)) :
    Reads (vector p) (count ++ as.flatMap f) (as.map g) :=
  hcount.bind (times h)

theorem bytes (hcount : Reads unsigned count bs.length) :
    Reads (BinaryReader.vector byte) (count ++ bs) bs := by
  have h := hcount.vector (p := byte) (f := fun b => [b]) (g := id) fun _ _ _ => rfl
  rwa [flatMap_singleton', map_id] at h

theorem sized (hcount : Reads unsigned count bs.length) (h : Reads p bs a) :
    Reads (sized p) (count ++ bs) a := by
  have hp := h []
  rw [append_nil] at hp
  rw [← append_nil (count ++ bs)]
  apply (bytes hcount).bind
  intro rest
  rw [hp]
  rfl

end Reads

end BinaryReader
