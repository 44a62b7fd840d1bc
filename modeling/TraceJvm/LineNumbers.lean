import TraceJvm.CodeParser
import TraceJvm.Lib.Bisection
import Mathlib.Data.Finset.Max

/-! `get_line_number`, which searches the `LineNumberTable` as if it were sorted. -/
namespace TraceJvm

open ByteReader Bisection

structure LineNumberTableEntry where
  startPc : ℕ
  line : ℕ

/-- The entries of a `LineNumberTable`, as they come. -/
def readLineNumbers : ℕ → CodeParser (List LineNumberTableEntry)
  | 0 => pure []
  | n + 1 => do
      let startPc ← nextU16 "line number start pc"
      let line ← nextU16 "line number"
      let entries ← readLineNumbers n
      pure (⟨startPc, line⟩ :: entries)

/-- The case `LineNumberTable` of `parse_attribute`. -/
def parseLineNumberTable : CodeParser (List LineNumberTableEntry) := do
  let count ← nextU16 "line number table count"
  readLineNumbers count

/-- `attribute_code`, as far as `get_line_number` reads it: the `original_pc` of each instruction,
and the table if there is one. -/
structure LineCode where
  code : List ℕ
  lineNumberTable : Option (List LineNumberTableEntry)

/-- What the loop of `get_line_number` does at the index `mid`. -/
def lineVerdict (entries : List LineNumberTableEntry) (originalPc mid : ℕ) : Ordering :=
  match entries[mid]? with
  | none => .gt
  | some entry =>
      if entry.startPc ≤ originalPc ∧ (mid = entries.length - 1 ∨
          (entries[mid + 1]?).all (fun next => originalPc < next.startPc) = true) then .eq
      else if entry.startPc < originalPc then .lt
      else .gt

def getLineNumber (code : LineCode) (pc : ℕ) : ℤ :=
  match code.lineNumberTable, code.code[pc]? with
  | some entries, some originalPc =>
      match bisect (lineVerdict entries originalPc) 0 entries.length with
      | none => -1
      | some mid =>
          match entries[mid]? with
          | none => -1
          | some entry => entry.line
  | _, _ => -1

/-- An entry with the greatest `start_pc` that is not above the pc. -/
def Covers (entries : List LineNumberTableEntry) (originalPc : ℕ) (e : LineNumberTableEntry) :
    Prop :=
  e ∈ entries ∧ e.startPc ≤ originalPc ∧
    ∀ e' ∈ entries, e'.startPc ≤ originalPc → e'.startPc ≤ e.startPc

/-- The line of an instruction is that of such an entry, and -1 only where there is none. -/
def LineRight (code : LineCode) (pc : ℕ) : Prop :=
  ∀ originalPc, code.code[pc]? = some originalPc →
    (∃ e, Covers (code.lineNumberTable.getD []) originalPc e ∧ getLineNumber code pc = e.line) ∨
    getLineNumber code pc = -1 ∧ ∀ e ∈ code.lineNumberTable.getD [], originalPc < e.startPc

/-- The search gets from each entry that it looks at towards an entry with the line of one that
covers the pc, and stops there. -/
def SearchLeads (entries : List LineNumberTableEntry) (originalPc : ℕ) : Prop :=
  ∃ j entry e, entries[j]? = some entry ∧ Covers entries originalPc e ∧ entry.line = e.line ∧
    lineVerdict entries originalPc j = .eq ∧
    ∀ m ∈ probes 0 entries.length j, Towards (lineVerdict entries originalPc) j m

variable {entries : List LineNumberTableEntry} {originalPc : ℕ}

theorem startPc_of_stop {j : ℕ} {entry : LineNumberTableEntry} (hj : entries[j]? = some entry)
    (h : lineVerdict entries originalPc j = .eq) : entry.startPc ≤ originalPc := by
  unfold lineVerdict at h
  rw [hj] at h
  dsimp only at h
  split at h
  · rename_i hcond
    exact hcond.1
  · split at h
    · cases h
    · cases h

/-- Where the search ends. -/
theorem getLineNumber_eq {code : LineCode} {pc : ℕ} (hpc : code.code[pc]? = some originalPc)
    (hentries : code.lineNumberTable.getD [] = entries) :
    (∃ j entry, bisect (lineVerdict entries originalPc) 0 entries.length = some j ∧
      entries[j]? = some entry ∧ getLineNumber code pc = entry.line) ∨
    bisect (lineVerdict entries originalPc) 0 entries.length = none ∧
      getLineNumber code pc = -1 := by
  unfold getLineNumber
  cases htable : code.lineNumberTable with
  | none =>
    rw [htable] at hentries
    subst hentries
    right
    constructor
    · show bisect _ 0 0 = none
      rw [bisect, dif_neg (Nat.lt_irrefl 0)]
    · rfl
  | some table =>
    rw [htable] at hentries
    subst hentries
    rw [hpc]
    dsimp only [Option.getD_some]
    cases hsearch : bisect (lineVerdict table originalPc) 0 table.length with
    | none => exact Or.inr ⟨rfl, rfl⟩
    | some j =>
      left
      have hlt := (bisect_eq_some_iff.mp hsearch).2.1
      have hget := List.getElem?_eq_getElem hlt
      use j, table[j]
      refine ⟨rfl, hget, ?_⟩
      dsimp only
      rw [hget]

theorem searchLeads_iff : SearchLeads entries originalPc ↔
    ∃ j entry e, bisect (lineVerdict entries originalPc) 0 entries.length = some j ∧
      entries[j]? = some entry ∧ Covers entries originalPc e ∧ entry.line = e.line := by
  constructor
  · intro ⟨j, entry, e, hentry, hcovers, hline, hstop, htowards⟩
    have hlt := (List.getElem?_eq_some_iff.mp hentry).1
    exact ⟨j, entry, e, bisect_eq_some_iff.mpr ⟨Nat.zero_le j, hlt, hstop, htowards⟩, hentry,
      hcovers, hline⟩
  · intro ⟨j, entry, e, hsearch, hentry, hcovers, hline⟩
    obtain ⟨-, -, hstop, htowards⟩ := bisect_eq_some_iff.mp hsearch
    exact ⟨j, entry, e, hentry, hcovers, hline, hstop, htowards⟩

/-- The line of one instruction. -/
theorem line_iff_searchLeads {code : LineCode} {pc : ℕ} (hpc : code.code[pc]? = some originalPc) :
    ((∃ e, Covers (code.lineNumberTable.getD []) originalPc e ∧ getLineNumber code pc = e.line) ∨
      getLineNumber code pc = -1 ∧
        ∀ e ∈ code.lineNumberTable.getD [], originalPc < e.startPc) ↔
    (∀ e ∈ code.lineNumberTable.getD [], originalPc < e.startPc) ∨
      SearchLeads (code.lineNumberTable.getD []) originalPc := by
  rw [searchLeads_iff]
  constructor
  · intro h
    rcases h with ⟨e, hcovers, hline⟩ | ⟨-, hnone⟩
    · right
      rcases getLineNumber_eq hpc rfl with ⟨j, entry, hsearch, hentry, heq⟩ | ⟨-, hminus⟩
      · rw [heq] at hline
        exact ⟨j, entry, e, hsearch, hentry, hcovers, Int.ofNat_inj.mp hline⟩
      · rw [hminus] at hline
        omega
    · exact Or.inl hnone
  · intro h
    rcases h with hnone | ⟨j, entry, e, hsearch, hentry, hcovers, hline⟩
    · right
      rcases getLineNumber_eq hpc rfl with ⟨j, entry, hsearch, hentry, heq⟩ | ⟨-, hminus⟩
      · -- an entry that starts after the pc stops no search
        have hstart := startPc_of_stop hentry (bisect_eq_some_iff.mp hsearch).2.2.1
        have hafter := hnone entry (List.mem_of_getElem? hentry)
        omega
      · exact ⟨hminus, hnone⟩
    · left
      rcases getLineNumber_eq hpc rfl with ⟨j', entry', hsearch', hentry', heq⟩ | ⟨hnone, -⟩
      · rw [hsearch] at hsearch'
        cases hsearch'
        rw [hentry] at hentry'
        cases hentry'
        exact ⟨e, hcovers, by rw [heq, hline]⟩
      · rw [hsearch] at hnone
        cases hnone

end TraceJvm
