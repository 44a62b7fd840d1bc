import TraceJvm.EngineRuns

/-! The accounting of output bytes: the length that is charged for a string, and the chunks that a
budget accepts in a run. -/
namespace TraceJvm

open List

/-- `new TextEncoder().encode(str)` -/
def textEncode (str : JsString) : List UInt8 := (scalarValues str).flatMap utf8Bytes

theorem length_utf8Bytes (c : ℕ) : (utf8Bytes c).length =
    if c ≤ 0x7F then 1 else if c ≤ 0x7FF then 2 else if c ≤ 0xFFFF then 3 else 4 := by
  unfold utf8Bytes
  split
  · rfl
  · split
    · rfl
    · split <;> rfl

/-- A code unit outside of a pair takes at most three bytes, and a lone surrogate takes three. -/
theorem length_loneUnit (u : UInt16) : (utf8Bytes (loneUnit u)).length =
    if u < 0x80 then 1 else if u < 0x800 then 2 else 3 := by
  have hlt := u.toNat_lt
  rw [length_utf8Bytes]
  unfold loneUnit isLeadSurrogate isTrailSurrogate
  simp only [UInt16.lt_iff_toNat_lt, UInt16.le_iff_toNat_le, Bool.or_eq_true, Bool.and_eq_true,
    decide_eq_true_eq, UInt16.reduceToNat]
  split_ifs <;> omega

theorem length_pair (u v : UInt16) :
    (utf8Bytes (0x10000 + (u.toNat - 0xD800) * 0x400 + (v.toNat - 0xDC00))).length = 4 := by
  rw [length_utf8Bytes]
  split_ifs <;> omega

theorem lead_large {u : UInt16} (h : isLeadSurrogate u = true) : ¬ u < 0x80 ∧ ¬ u < 0x800 := by
  simp only [isLeadSurrogate, Bool.and_eq_true, decide_eq_true_eq, UInt16.le_iff_toNat_le,
    UInt16.lt_iff_toNat_lt, UInt16.reduceToNat] at h ⊢
  omega

/-- The length that is charged is that of the encoded text. -/
theorem utf8ByteLength_eq (str : JsString) : utf8ByteLength str = (textEncode str).length := by
  unfold textEncode
  induction str using scalarValues.induct with
  | case1 => rfl
  | case2 u =>
    rw [scalarValues, flatMap_singleton, length_loneUnit]
    rfl
  | case3 u v rest hpair ih =>
    have hlarge := lead_large (Bool.and_eq_true_iff.mp hpair).1
    rw [scalarValues, if_pos hpair, flatMap_cons, length_append, length_pair, ← ih,
      utf8ByteLength, if_neg hlarge.1, if_neg hlarge.2, if_pos hpair]
  | case4 u v rest hpair ih =>
    rw [scalarValues, if_neg hpair, flatMap_cons, length_append, length_loneUnit, ← ih,
      utf8ByteLength, if_neg hpair]
    split_ifs <;> rfl

/-- `new TraceJVMOutputBudget(maximumBytes)`; `none` if it throws. -/
def OutputBudget.create (maximumBytes : ℕ) : Option OutputBudget :=
  if maximumBytes ≤ maxSafeInteger ∧ 0 < maximumBytes then some ⟨0, maximumBytes⟩ else none

/-- A run of chunks, whose exceptions are caught: the budget, and the chunks that it accepted. -/
def OutputBudget.run (b : OutputBudget) : List JsString → OutputBudget × List JsString
  | [] => (b, [])
  | chunk :: chunks =>
    match b.consume chunk with
    | some b' => ((b'.run chunks).1, chunk :: (b'.run chunks).2)
    | none => b.run chunks

/-- The encoded length of some chunks together. -/
def encodedTotal (chunks : List JsString) : ℕ :=
  (chunks.map fun chunk => (textEncode chunk).length).sum

namespace OutputBudget

variable {b : OutputBudget}

theorem consume_eq (h : b.maximumBytes ≤ maxSafeInteger) (chunk : JsString) : b.consume chunk =
    if b.usedBytes + (textEncode chunk).length ≤ b.maximumBytes then
      some { b with usedBytes := b.usedBytes + (textEncode chunk).length }
    else none := by
  unfold consume
  rw [utf8ByteLength_eq]
  dsimp only
  by_cases hroom : b.usedBytes + (textEncode chunk).length ≤ b.maximumBytes
  · rw [if_pos hroom, if_neg (by omega)]
  · rw [if_neg hroom, if_pos (by omega)]

theorem run_append (chunks : List JsString) (chunk : JsString) : b.run (chunks ++ [chunk]) =
    match (b.run chunks).1.consume chunk with
    | some b' => (b', (b.run chunks).2 ++ [chunk])
    | none => b.run chunks := by
  induction chunks generalizing b with
  | nil =>
    simp only [nil_append, run]
  | cons first chunks ih =>
    rw [cons_append, run, run]
    cases b.consume first with
    | none => exact ih
    | some b' =>
      dsimp only
      rw [ih]
      cases (b'.run chunks).1.consume chunk <;> rfl

/-- The bytes used are those of the accepted chunks. -/
theorem run_used (h : b.maximumBytes ≤ maxSafeInteger) (chunks : List JsString) :
    (b.run chunks).1 = { b with usedBytes := b.usedBytes + encodedTotal (b.run chunks).2 } := by
  induction chunks generalizing b with
  | nil => rfl
  | cons chunk chunks ih =>
    rw [run, consume_eq h]
    by_cases hroom : b.usedBytes + (textEncode chunk).length ≤ b.maximumBytes
    · simp only [if_pos hroom, encodedTotal, map_cons, sum_cons]
      rw [ih (b := { b with usedBytes := b.usedBytes + (textEncode chunk).length }) h]
      simp [encodedTotal, Nat.add_assoc]
    · simp only [if_neg hroom]
      exact ih h

end OutputBudget

/-- Strings are charged their encoded length, and after any run of chunks the next one is accepted
exactly if it fits together with those accepted before; a refused chunk changes nothing. -/
theorem output_bytes_accounted (maximumBytes : ℕ) :
    (∀ str, utf8ByteLength str = (textEncode str).length) ∧
    ∀ b, OutputBudget.create maximumBytes = some b → ∀ chunks chunk,
      (b.run chunks).1.usedBytes = encodedTotal (b.run chunks).2 ∧
      b.run (chunks ++ [chunk]) =
        if encodedTotal ((b.run chunks).2 ++ [chunk]) ≤ maximumBytes then
          (⟨encodedTotal ((b.run chunks).2 ++ [chunk]), maximumBytes⟩,
            (b.run chunks).2 ++ [chunk])
        else b.run chunks := by
  refine ⟨utf8ByteLength_eq, fun b hb chunks chunk => ?_⟩
  unfold OutputBudget.create at hb
  split at hb
  · rename_i hmax
    cases hb
    have hused := OutputBudget.run_used (b := ⟨0, maximumBytes⟩) hmax.1 chunks
    rw [Nat.zero_add] at hused
    refine ⟨congrArg OutputBudget.usedBytes hused, ?_⟩
    have htotal : encodedTotal ((OutputBudget.run ⟨0, maximumBytes⟩ chunks).2 ++ [chunk]) =
        encodedTotal (OutputBudget.run ⟨0, maximumBytes⟩ chunks).2 + (textEncode chunk).length := by
      simp [encodedTotal]
    rw [OutputBudget.run_append, hused, OutputBudget.consume_eq hmax.1, htotal]
    by_cases hfit : encodedTotal (OutputBudget.run ⟨0, maximumBytes⟩ chunks).2 +
        (textEncode chunk).length ≤ maximumBytes
    · rw [if_pos hfit, if_pos hfit]
    · rw [if_neg hfit, if_neg hfit]
  · cases hb

theorem output_bytes_accounted_pair :
    OutputBudget.run ⟨0, 5⟩ [[0x61, 0xD83D, 0xDE00], [0xDE00]] =
      (⟨5, 5⟩, [[0x61, 0xD83D, 0xDE00]]) :=
  ((output_bytes_accounted 5).2 ⟨0, 5⟩ (by decide) [[0x61, 0xD83D, 0xDE00]] [0xDE00]).2.trans
    (by decide)

end TraceJvm
