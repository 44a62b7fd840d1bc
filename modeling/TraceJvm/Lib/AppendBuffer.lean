import Mathlib.Data.List.Basic
import Mathlib.Tactic.Ring

/-! Programs that append to a block of memory of a fixed capacity. Formatted output ends in a
terminator that the next write replaces, and only some of it is cut off at the end of the block. -/
namespace AppendBuffer

open List

variable {α : Type*}

inductive Piece (α : Type*) where
  /-- A single cell. -/
  | put (c : α)
  /-- A copy of a run of cells. -/
  | copy (text : List α)
  /-- Formatted output and its terminator, whatever room there is. -/
  | format (text : List α)
  /-- Formatted output and its terminator, cut off at the room that the program computes. -/
  | formatWithin (text : List α)

def Piece.text : Piece α → List α
  | put c => [c]
  | copy t | format t | formatWithin t => t

/-- The program has written the cells below `peak` only, and goes on at `out`. -/
structure Buffer (α : Type*) where
  cells : ℕ → α
  out : ℕ
  peak : ℕ

namespace Buffer

def store (b : Buffer α) (text : List α) : Buffer α where
  cells i := if b.out ≤ i then (text[i - b.out]?).getD (b.cells i) else b.cells i
  out := b.out
  peak := if text.isEmpty then b.peak else max b.peak (b.out + text.length)

def advance (b : Buffer α) (n : ℕ) : Buffer α := { b with out := b.out + n }

def text (b : Buffer α) : List α := (List.range b.out).map b.cells

end Buffer

/-- The room that is left, as an unsigned number with `word` values. -/
def room (word capacity out : ℕ) : ℕ := (capacity + (word - out % word)) % word

def cut (terminator : α) (text : List α) (room : ℕ) : List α :=
  if room = 0 then [] else text.take (room - 1) ++ [terminator]

section
variable (word capacity : ℕ) (terminator : α)

def emit (b : Buffer α) : Piece α → Buffer α
  | .put c => (b.store [c]).advance 1
  | .copy t => (b.store t).advance t.length
  | .format t => (b.store (t ++ [terminator])).advance t.length
  | .formatWithin t => (b.store (cut terminator t (room word capacity b.out))).advance t.length

def emitAll (b : Buffer α) (ps : List (Piece α)) : Buffer α :=
  ps.foldl (emit word capacity terminator) b

def texts (ps : List (Piece α)) : List α := ps.flatMap Piece.text

end

variable {word capacity : ℕ} {terminator : α} {b : Buffer α} {ps qs : List (Piece α)}

theorem emitAll_append (b : Buffer α) (ps qs : List (Piece α)) :
    emitAll word capacity terminator b (ps ++ qs) =
      emitAll word capacity terminator (emitAll word capacity terminator b ps) qs :=
  foldl_append

theorem texts_append (ps qs : List (Piece α)) : texts (ps ++ qs) = texts ps ++ texts qs :=
  flatMap_append

theorem length_texts_cons (p : Piece α) (ps : List (Piece α)) :
    (texts (p :: ps)).length = p.text.length + (texts ps).length :=
  length_append

theorem out_emit (b : Buffer α) (p : Piece α) :
    (emit word capacity terminator b p).out = b.out + p.text.length := by
  cases p <;> rfl

theorem out_emitAll (b : Buffer α) (ps : List (Piece α)) :
    (emitAll word capacity terminator b ps).out = b.out + (texts ps).length := by
  induction ps generalizing b with
  | nil => rfl
  | cons p ps ih =>
    show (emitAll word capacity terminator (emit word capacity terminator b p) ps).out = _
    rw [ih, out_emit, length_texts_cons]
    omega

theorem peak_le_of_store {t : List α} {n : ℕ} (hb : b.peak ≤ n) (h : b.out + t.length ≤ n) :
    (b.store t).peak ≤ n := by
  unfold Buffer.store
  dsimp only
  split
  · exact hb
  · exact max_le hb h

theorem text_store_advance (b : Buffer α) (t u : List α) :
    ((b.store (t ++ u)).advance t.length).text = b.text ++ t := by
  unfold Buffer.text Buffer.advance Buffer.store
  dsimp only
  rw [range_add, map_append, map_map]
  congr 1
  · apply map_congr_left
    intro i hi
    rw [if_neg (Nat.not_le.mpr (mem_range.mp hi))]
  · apply ext_getElem
    · simp
    · intro i hi hi'
      have hlt : i < (t ++ u).length := by
        rw [length_append]
        omega
      rw [getElem_map, getElem_range, Function.comp_apply, if_pos (Nat.le_add_right _ _),
        Nat.add_sub_cancel_left, getElem?_eq_getElem hlt, Option.getD_some,
        getElem_append_left hi']

theorem room_eq (hword : capacity < word) (h : b.out ≤ capacity) :
    room word capacity b.out = capacity - b.out := by
  unfold room
  rw [Nat.mod_eq_of_lt (by omega : b.out < word), show capacity + (word - b.out) =
    capacity - b.out + word by omega, Nat.add_mod_right, Nat.mod_eq_of_lt (by omega)]

theorem cut_of_lt {t : List α} {n : ℕ} (h : t.length < n) :
    cut terminator t n = t ++ [terminator] := by
  unfold cut
  rw [if_neg (by omega), take_of_length_le (by omega)]

def Piece.Plain : Piece α → Prop
  | put _ | copy _ => True
  | format _ | formatWithin _ => False

theorem emit_plain {p : Piece α} (hp : p.Plain) {n : ℕ} (hpeak : b.peak ≤ n)
    (h : b.out + p.text.length ≤ n) :
    (emit word capacity terminator b p).text = b.text ++ p.text ∧
      (emit word capacity terminator b p).peak ≤ n := by
  cases p with
  | put c =>
    refine ⟨text_store_advance b [c] [], ?_⟩
    show (b.store [c]).peak ≤ n
    exact peak_le_of_store hpeak h
  | copy t =>
    have htext := text_store_advance b t []
    rw [append_nil] at htext
    exact ⟨htext, peak_le_of_store hpeak h⟩
  | format t => exact hp.elim
  | formatWithin t => exact hp.elim

/-- A piece after which there is still room for a cell is written in full and within the block. -/
theorem emit_fits (hword : capacity < word) (p : Piece α) (hpeak : b.peak ≤ capacity)
    (h : b.out + p.text.length + 1 ≤ capacity) :
    (emit word capacity terminator b p).text = b.text ++ p.text ∧
      (emit word capacity terminator b p).peak ≤ capacity := by
  cases p with
  | put c => exact emit_plain (p := .put c) trivial hpeak (Nat.le_of_succ_le h)
  | copy t => exact emit_plain (p := .copy t) trivial hpeak (Nat.le_of_succ_le h)
  | format t =>
    refine ⟨text_store_advance b t [terminator], peak_le_of_store hpeak ?_⟩
    simp only [Piece.text] at h
    rw [length_append, length_singleton]
    omega
  | formatWithin t =>
    simp only [Piece.text] at h
    have hcut : cut terminator t (room word capacity b.out) = t ++ [terminator] := by
      rw [room_eq hword (by omega)]
      apply cut_of_lt
      omega
    simp only [emit, hcut]
    refine ⟨text_store_advance b t [terminator], peak_le_of_store hpeak ?_⟩
    rw [length_append, length_singleton]
    omega

/-- What one piece that leaves `r` cells does, all of them do. -/
theorem emitAll_of_emit {P : Piece α → Prop} {n r : ℕ}
    (hemit : ∀ {b : Buffer α} {p}, P p → b.peak ≤ n → b.out + p.text.length + r ≤ n →
      (emit word capacity terminator b p).text = b.text ++ p.text ∧
        (emit word capacity terminator b p).peak ≤ n)
    (hps : ∀ p ∈ ps, P p) (hpeak : b.peak ≤ n) (h : b.out + (texts ps).length + r ≤ n) :
    (emitAll word capacity terminator b ps).text = b.text ++ texts ps ∧
      (emitAll word capacity terminator b ps).peak ≤ n := by
  induction ps generalizing b with
  | nil => exact ⟨(append_nil _).symm, hpeak⟩
  | cons p ps ih =>
    rw [length_texts_cons] at h
    obtain ⟨htext, hfirst⟩ := hemit (b := b) (hps p mem_cons_self) hpeak (by omega)
    have hrest := ih (b := emit word capacity terminator b p)
      (fun q hq => hps q (mem_cons_of_mem _ hq)) hfirst (by rw [out_emit]; omega)
    rw [htext, append_assoc] at hrest
    exact hrest

theorem emitAll_fits (hword : capacity < word) (hpeak : b.peak ≤ capacity)
    (h : b.out + (texts ps).length + 1 ≤ capacity) :
    (emitAll word capacity terminator b ps).text = b.text ++ texts ps ∧
      (emitAll word capacity terminator b ps).peak ≤ capacity :=
  emitAll_of_emit (fun _ => emit_fits hword _) (fun _ _ => trivial) hpeak h

theorem emitAll_put (hword : capacity < word) (hpeak : b.peak ≤ capacity) (c : α) :
    (emitAll word capacity terminator b (ps ++ [.put c])).peak ≤ capacity ↔
      b.out + (texts ps).length + 1 ≤ capacity := by
  have hend : (emitAll word capacity terminator b (ps ++ [.put c])).peak =
      max (emitAll word capacity terminator b ps).peak
        ((emitAll word capacity terminator b ps).out + 1) := by
    rw [emitAll_append]
    exact rfl
  rw [hend, out_emitAll]
  constructor
  · intro h
    exact (le_max_right _ _).trans h
  · intro h
    exact max_le (emitAll_fits hword hpeak h).2 h

theorem text_emitAll_put (hword : capacity < word) (hpeak : b.peak ≤ capacity) (c : α)
    (h : b.out + (texts ps).length + 1 ≤ capacity) :
    (emitAll word capacity terminator b (ps ++ [.put c])).text = b.text ++ texts ps ++ [c] := by
  rw [emitAll_append]
  rw [← (emitAll_fits hword hpeak h).1]
  exact text_store_advance _ [c] []

theorem emitAll_plain (hps : ∀ p ∈ ps, p.Plain) {n : ℕ} (hpeak : b.peak ≤ n)
    (h : b.out + (texts ps).length ≤ n) :
    (emitAll word capacity terminator b ps).text = b.text ++ texts ps ∧
      (emitAll word capacity terminator b ps).peak ≤ n :=
  emitAll_of_emit (r := 0) (fun hp hpeak h => emit_plain hp hpeak h) hps hpeak h

end AppendBuffer
