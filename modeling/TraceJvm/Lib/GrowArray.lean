import Mathlib.Data.Nat.Log
import Mathlib.Tactic.IntervalCases

/-! Growable arrays that are known by the address of their elements. A push beyond the capacity
moves the elements to a new block and ends the life of the old one, so that a copy of the address
made before the push dangles. -/
namespace GrowArray

open Function

variable {α : Type*}

/-- A block of memory with room for `capacity` elements. -/
structure Block (α : Type*) where
  capacity : ℕ
  contents : List α
  fits : contents.length ≤ capacity

structure Heap (α : Type*) where
  blocks : ℕ → Option (Block α)
  next : ℕ
  fresh : ∀ i, next ≤ i → blocks i = none

/-- The capacity asked for when an array of `length` elements is full. -/
def growCapacity (length capacity : ℕ) : ℕ :=
  if length + 1 < 2 * capacity then 2 * capacity else if length + 1 < 4 then 4 else length + 1

theorem lt_growCapacity (length capacity : ℕ) : length < growCapacity length capacity := by
  unfold growCapacity
  split_ifs <;> omega

namespace Block

def push (b : Block α) (x : α) (h : b.contents.length < b.capacity) : Block α where
  capacity := b.capacity
  contents := b.contents ++ [x]
  fits := by
    rw [List.length_append, List.length_singleton]
    omega

def grown (b : Block α) (x : α) : Block α where
  capacity := growCapacity b.contents.length b.capacity
  contents := b.contents ++ [x]
  fits := by
    have hlt := lt_growCapacity b.contents.length b.capacity
    rw [List.length_append, List.length_singleton]
    omega

def first (x : α) : Block α where
  capacity := growCapacity 0 0
  contents := [x]
  fits := lt_growCapacity 0 0

end Block

/-- The capacity of an array that has been built by `n` pushes. -/
def builtCapacity (n : ℕ) : ℕ := if n = 0 then 0 else max 4 (2 ^ Nat.clog 2 n)

theorem builtCapacity_of_four_le {n : ℕ} (hn : 4 ≤ n) :
    builtCapacity n = 2 ^ Nat.clog 2 n := by
  have hle : 4 ≤ 2 ^ Nat.clog 2 n := hn.trans (Nat.le_pow_clog (by omega) n)
  rw [builtCapacity, if_neg (by omega), max_eq_right hle]

/-- One more push leaves the capacity, or grows it from a full block. -/
theorem builtCapacity_succ {n : ℕ} (hn : 0 < n) :
    builtCapacity (n + 1) =
      if n < builtCapacity n then builtCapacity n else growCapacity n (builtCapacity n) := by
  by_cases hsmall : n < 4
  · interval_cases n <;> decide
  · have hle := Nat.le_pow_clog (b := 2) (by omega) n
    have hbuilt := builtCapacity_of_four_le (n := n) (by omega)
    rw [builtCapacity_of_four_le (n := n + 1) (by omega), hbuilt]
    split
    · rename_i hlt
      have hsame : Nat.clog 2 (n + 1) = Nat.clog 2 n :=
        le_antisymm (Nat.clog_le_of_le_pow hlt) (Nat.clog_mono_right 2 (by omega))
      rw [hsame]
    · rename_i hge
      have hfull : 2 ^ Nat.clog 2 n = n := by omega
      have hnext : Nat.clog 2 (n + 1) = Nat.clog 2 n + 1 := by
        apply le_antisymm
        · apply Nat.clog_le_of_le_pow
          rw [pow_succ, hfull]
          omega
        · rw [Nat.add_one_le_iff, Nat.lt_clog_iff_pow_lt (by omega), hfull]
          omega
      rw [hnext, pow_succ, hfull, growCapacity, if_pos (by omega), Nat.mul_comm]

namespace Heap

def empty : Heap α where
  blocks _ := none
  next := 0
  fresh _ _ := rfl

def alloc (h : Heap α) (b : Block α) : Heap α where
  blocks := update h.blocks h.next (some b)
  next := h.next + 1
  fresh i hi := by
    rw [update_of_ne (by omega)]
    exact h.fresh i (by omega)

def free (h : Heap α) (i : ℕ) : Heap α where
  blocks := update h.blocks i none
  next := h.next
  fresh j hj := by
    by_cases hji : j = i
    · rw [hji, update_self]
    · rw [update_of_ne hji]
      exact h.fresh j hj

theorem lt_next {h : Heap α} {i : ℕ} {b : Block α} (hb : h.blocks i = some b) : i < h.next := by
  by_contra hge
  rw [h.fresh i (by omega)] at hb
  cases hb

def write (h : Heap α) (i : ℕ) (b : Block α) : Heap α where
  blocks := update h.blocks i ((h.blocks i).map fun _ => b)
  next := h.next
  fresh j hj := by
    by_cases hji : j = i
    · rw [hji, update_self, ← hji, h.fresh j hj]
      rfl
    · rw [update_of_ne hji]
      exact h.fresh j hj

/-- What an array variable denotes: the null address is the empty array, and a dangling address
denotes nothing. -/
def read (h : Heap α) : Option ℕ → Option (List α)
  | none => some []
  | some i => (h.blocks i).map Block.contents

/-- Pushes an element and returns the new value of the variable; `none` for a dangling address. -/
def put (h : Heap α) : Option ℕ → α → Option (Heap α × Option ℕ)
  | none, x => some (h.alloc (.first x), some h.next)
  | some i, x =>
      match h.blocks i with
      | none => none
      | some b =>
          if hroom : b.contents.length < b.capacity then
            some (h.write i (b.push x hroom), some i)
          else some ((h.free i).alloc (b.grown x), some h.next)

def putAll (h : Heap α) (p : Option ℕ) : List α → Option (Heap α × Option ℕ)
  | [] => some (h, p)
  | x :: xs => (h.put p x).bind fun r => putAll r.1 r.2 xs

variable {h h' : Heap α} {p p' : Option ℕ} {i : ℕ} {b : Block α} {x : α} {xs : List α}

theorem put_room (hb : h.blocks i = some b) (hroom : b.contents.length < b.capacity) :
    h.put (some i) x = some (h.write i (b.push x hroom), some i) := by
  simp [put, hb, hroom]

theorem put_full (hb : h.blocks i = some b) (hfull : ¬ b.contents.length < b.capacity) :
    h.put (some i) x = some ((h.free i).alloc (b.grown x), some h.next) := by
  simp [put, hb, hfull]

theorem write_self (hb : h.blocks i = some b) (b' : Block α) :
    (h.write i b').blocks i = some b' := by
  simp [write, hb]

/-- A push into a live block leaves the variable at a live block that holds one element more. -/
theorem put_some (hb : h.blocks i = some b) (x : α) :
    ∃ h' j b', h.put (some i) x = some (h', some j) ∧ h'.blocks j = some b' ∧
      b'.contents = b.contents ++ [x] ∧
      b'.capacity = (if b.contents.length < b.capacity then b.capacity
        else growCapacity b.contents.length b.capacity) ∧ h.next ≤ h'.next ∧
      (∀ k, k < h.next → h.blocks k = none → h'.blocks k = none) ∧
      (¬ b.contents.length < b.capacity → h'.blocks i = none) := by
  have hi := lt_next hb
  by_cases hroom : b.contents.length < b.capacity
  · refine ⟨_, _, _, put_room hb hroom, write_self hb _, rfl, (if_pos hroom).symm, le_rfl,
      ?_, fun hf => absurd hroom hf⟩
    intro k _ hk
    have hne : k ≠ i := by
      rintro rfl
      rw [hb] at hk
      cases hk
    simpa [write, hne] using hk
  · refine ⟨_, _, _, put_full hb hroom, update_self .., rfl, (if_neg hroom).symm,
      Nat.le_succ _, ?_, fun _ => ?_⟩
    · intro k hlt hk
      have hne : k ≠ h.next := by omega
      by_cases hki : k = i <;> simp [alloc, free, hne, hki, hk, hi.ne]
    · simp [alloc, free, hi.ne]

theorem putAll_some (hb : h.blocks i = some b) (xs : List α) :
    ∃ h' j b', h.putAll (some i) xs = some (h', some j) ∧ h'.blocks j = some b' ∧
      b'.contents = b.contents ++ xs ∧
      (∀ k, k < h.next → h.blocks k = none → h'.blocks k = none) ∧
      (0 < b.contents.length → b.capacity = builtCapacity b.contents.length →
        b'.capacity = builtCapacity b'.contents.length) := by
  induction xs generalizing h i b with
  | nil => exact ⟨h, i, b, rfl, hb, by simp, fun _ _ hk => hk, fun _ hcap => hcap⟩
  | cons x xs ih =>
    obtain ⟨h₁, j, b₁, hput, hb₁, hc₁, hcap₁, hnext, hfreed, -⟩ := put_some hb x
    obtain ⟨h', j', b', hall, hb', hc', hfreed', hcap'⟩ := ih hb₁
    refine ⟨h', j', b', ?_, hb', by simp [hc', hc₁], fun k hk hnone => ?_, fun hpos hcap => ?_⟩
    · simp [putAll, hput, hall]
    · exact hfreed' k (by omega) (hfreed k hk hnone)
    · have hlen : b₁.contents.length = b.contents.length + 1 := by simp [hc₁]
      refine hcap' (by omega) ?_
      rw [hcap₁, hlen, builtCapacity_succ hpos, ← hcap]

/-- Through a copy of the address made before the pushes, the elements are read if all of them
found room in the block, and otherwise the copy dangles. -/
theorem read_copy (hb : h.blocks i = some b) (hput : h.putAll (some i) xs = some (h', p')) :
    h'.read (some i) =
      if b.contents.length + xs.length ≤ b.capacity then some (b.contents ++ xs) else none := by
  induction xs generalizing h b with
  | nil =>
    cases hput
    simp [read, hb, b.fits]
  | cons x xs ih =>
    by_cases hroom : b.contents.length < b.capacity
    · simp only [putAll, put_room hb hroom, Option.bind_some] at hput
      rw [ih (write_self hb _) hput]
      simp [Block.push, Nat.add_comm 1, Nat.add_assoc]
    · obtain ⟨h₁, j, b₁, hfirst, hb₁, -, -, hnext, -, hdead⟩ := put_some hb x
      obtain ⟨h₂, j', b', hall, -, -, hfreed, -⟩ := putAll_some hb₁ xs
      simp only [putAll, hfirst, Option.bind_some] at hput
      cases hall.symm.trans hput
      have hi := lt_next hb
      have hnone := hfreed i (by omega) (hdead hroom)
      have hover : ¬ b.contents.length + (x :: xs).length ≤ b.capacity := by
        simp only [List.length_cons]
        omega
      rw [if_neg hover]
      simp [read, hnone]

theorem putAll_none (h : Heap α) (x : α) (xs : List α) :
    ∃ h' j b, h.putAll none (x :: xs) = some (h', some j) ∧ h'.blocks j = some b ∧
      b.contents = x :: xs ∧ b.capacity = builtCapacity (xs.length + 1) := by
  have hb : (h.alloc (.first x)).blocks h.next = some (.first x) := update_self ..
  obtain ⟨h', j, b, hall, hb', hc, -, hcap⟩ := putAll_some hb xs
  have hlist : b.contents = x :: xs := hc
  refine ⟨h', j, b, hall, hb', hlist, ?_⟩
  rw [hcap Nat.one_pos rfl, hlist, List.length_cons]

end Heap

end GrowArray
