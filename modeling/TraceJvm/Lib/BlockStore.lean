import Mathlib.Data.List.Perm.Basic

/-! The blocks of memory that a program has allocated and not freed, and who owns them. -/
namespace BlockStore

structure Store where
  /-- The name of the next block. -/
  next : ℕ
  live : List ℕ

namespace Store

def alloc (s : Store) : ℕ × Store := (s.next, ⟨s.next + 1, s.next :: s.live⟩)

def free (s : Store) (block : ℕ) : Option Store :=
  if block ∈ s.live then some { s with live := s.live.erase block } else none

def allocMany (s : Store) : ℕ → List ℕ × Store
  | 0 => ([], s)
  | n + 1 => ((s.alloc.2.allocMany n).1.cons s.alloc.1, (s.alloc.2.allocMany n).2)

def freeAll (s : Store) : List ℕ → Option Store
  | [] => some s
  | block :: blocks => (s.free block).bind fun s => s.freeAll blocks

end Store

def Owns (s : Store) (blocks rest : List ℕ) : Prop := s.live.Perm (blocks ++ rest)

variable {s : Store} {blocks blocks' rest : List ℕ} {block : ℕ}

theorem Owns.perm (h : Owns s blocks rest) (hp : blocks.Perm blocks') : Owns s blocks' rest :=
  List.Perm.trans h (hp.append_right rest)

theorem Owns.alloc (h : Owns s blocks rest) : Owns s.alloc.2 (s.alloc.1 :: blocks) rest :=
  List.Perm.cons s.next h

theorem Owns.allocMany (h : Owns s blocks rest) (n : ℕ) :
    Owns (s.allocMany n).2 ((s.allocMany n).1 ++ blocks) rest := by
  induction n generalizing s blocks with
  | zero => exact h
  | succ n ih =>
    apply (ih h.alloc).perm
    exact List.perm_middle

theorem Owns.free (h : Owns s (block :: blocks) rest) :
    ∃ s', s.free block = some s' ∧ Owns s' blocks rest := by
  have hmem : block ∈ s.live := (List.Perm.mem_iff h).mpr List.mem_cons_self
  use { s with live := s.live.erase block }
  constructor
  · unfold Store.free
    rw [if_pos hmem]
  · have herase := List.Perm.erase block h
    rw [List.cons_append, List.erase_cons_head] at herase
    exact herase

theorem Owns.freeAll (h : Owns s (blocks' ++ blocks) rest) :
    ∃ s', s.freeAll blocks' = some s' ∧ Owns s' blocks rest := by
  induction blocks' generalizing s with
  | nil => exact ⟨s, rfl, h⟩
  | cons block blocks' ih =>
    obtain ⟨t, ht, hown⟩ := Owns.free h
    obtain ⟨s', hs', hown'⟩ := ih hown
    use s'
    constructor
    · unfold Store.freeAll
      rw [ht]
      exact hs'
    · exact hown'

end BlockStore
