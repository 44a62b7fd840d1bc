import TraceJvm.TextAssembly

/-! `encodeLinesUtf8`: one pass over the lines computes the size of the output, and another one
writes it. -/
namespace TraceJvm

open AppendBuffer List

structure LineArray where
  lines : List (Option JavaString)
  length_lt : lines.length < 2 ^ 31
  bytes_lt : ∀ line ∈ lines, ∀ string ∈ line, string.value.length < 2 ^ 31

/-- What the native does to the heaps: `malloc`, `free`, and the allocation of the result. -/
inductive HeapEffect where
  | malloc (size : ℕ)
  | free
  | newArray (length : ℕ)

/-- One run of the native: the size that the first pass computes, the block of the second one, the
array that is returned, if not null, and the effects. -/
structure LineEncoding where
  total : Option Int64
  block : Option Assembly
  result : Option (List UInt8)
  effects : List HeapEffect

/-- `return value_null()` before anything has been allocated. -/
def LineEncoding.refused (total : Option Int64) : LineEncoding := ⟨total, none, none, []⟩

def addLine (total : Int64) (bytes : List UInt8) : Int64 :=
  bytes.foldl (fun total (b : UInt8) => total + Int64.ofNat (b >>> 7).toNat)
    (total + (Int64.ofNat bytes.length + 1))

/-- The loop of the first pass, which gives up at a null line and at one of the other coder. -/
def sizeLines : List (Option JavaString) → Int64 → Option Int64
  | [], total => some total
  | none :: _, _ => none
  | some string :: lines, total =>
    match string.coder with
    | .utf16 => none
    | .latin1 => sizeLines lines (addLine total string.value)

def latin1Pieces (latin1 : UInt8) : List (Piece UInt8) :=
  if latin1 < 0x80 then [.put latin1]
  else [.put ((0xC0 : UInt8) ||| latin1 >>> 6), .put ((0x80 : UInt8) ||| latin1 &&& 0x3F)]

def linePieces (line : Option JavaString) : List (Piece UInt8) :=
  ((line.map JavaString.value).getD []).flatMap latin1Pieces ++ [.put 0x0A]

/-- `encodeLinesUtf8` after the first pass: the second one writes to a block of the size that has
been found, which is copied to an array. -/
def writeLines (malloc : Malloc) (newArray : ℕ → Bool) (lines : List (Option JavaString))
    (total : Int64) : LineEncoding :=
  let capacity := if 0 < total then total.toInt.toNat else 1
  match malloc capacity with
  | none => .refused (some total)
  | some block =>
    let buffer := emitAll sizeWord capacity 0 ⟨block, 0, 0⟩ (lines.flatMap linePieces)
    if newArray buffer.out then
      ⟨some total, some ⟨capacity, buffer⟩, some buffer.text,
        [.malloc capacity, .newArray buffer.out, .free]⟩
    else ⟨some total, some ⟨capacity, buffer⟩, none, [.malloc capacity, .free]⟩

def encodeLinesUtf8 (malloc : Malloc) (newArray : ℕ → Bool) (lines : Option LineArray)
    (count : Int32) : LineEncoding :=
  match lines with
  | none => .refused none
  | some array =>
    if count < 0 ∨ (array.lines.length : ℤ) < count.toInt then .refused none
    else
      match sizeLines (array.lines.take count.toInt.toNat) 0 with
      | none => .refused none
      | some total =>
        if Int64.ofNat (2 ^ 31 - 1) < total then .refused (some total)
        else writeLines malloc newArray (array.lines.take count.toInt.toNat) total

/-! ### The encoding -/

def encodedLine (bytes : List UInt8) : List UInt8 :=
  bytes.flatMap (fun b => String.utf8EncodeChar (Char.ofNat b.toNat)) ++ [0x0A]

def latin1Line (line : Option JavaString) : Option (List UInt8) :=
  line.bind fun string =>
    match string.coder with
    | .latin1 => some string.value
    | .utf16 => none

/-- The first `count` lines, if there are so many and all can be encoded. -/
def countedLines (lines : Option LineArray) (count : ℤ) : Option (List (List UInt8)) :=
  lines.bind fun array =>
    if 0 ≤ count ∧ count ≤ array.lines.length then
      (array.lines.take count.toNat).mapM latin1Line
    else none

theorem texts_latin1Pieces (b : UInt8) :
    texts (latin1Pieces b) = String.utf8EncodeChar (Char.ofNat b.toNat) := by
  have hall : ∀ n < 256, texts (latin1Pieces (UInt8.ofNat n)) =
      String.utf8EncodeChar (Char.ofNat (UInt8.ofNat n).toNat) := by decide +kernel
  have h := hall b.toNat b.toNat_lt
  rwa [UInt8.ofNat_toNat] at h

theorem length_latin1Pieces (b : UInt8) :
    (String.utf8EncodeChar (Char.ofNat b.toNat)).length = (b >>> 7).toNat + 1 := by
  have hall : ∀ n < 256, (String.utf8EncodeChar (Char.ofNat (UInt8.ofNat n).toNat)).length =
      ((UInt8.ofNat n) >>> 7).toNat + 1 := by decide +kernel
  have h := hall b.toNat b.toNat_lt
  rwa [UInt8.ofNat_toNat] at h

def twoByteCount (bytes : List UInt8) : ℕ := (bytes.map fun (b : UInt8) => (b >>> 7).toNat).sum

theorem foldl_twoByteCount (bytes : List UInt8) (t : Int64) :
    bytes.foldl (fun total (b : UInt8) => total + Int64.ofNat (b >>> 7).toNat) t =
      t + Int64.ofNat (twoByteCount bytes) := by
  induction bytes generalizing t with
  | nil => exact (Int64.add_zero t).symm
  | cons b bytes ih =>
    rw [foldl_cons, ih, Int64.add_assoc, ← Int64.ofNat_add]
    exact rfl

theorem length_encodedLine (bytes : List UInt8) :
    (encodedLine bytes).length = bytes.length + 1 + twoByteCount bytes := by
  have hchars : (bytes.flatMap fun b => String.utf8EncodeChar (Char.ofNat b.toNat)).length =
      bytes.length + twoByteCount bytes := by
    induction bytes with
    | nil => rfl
    | cons b bytes ih =>
      rw [flatMap_cons, length_append, ih, length_latin1Pieces]
      unfold twoByteCount
      rw [length_cons, map_cons, sum_cons]
      omega
  unfold encodedLine
  rw [length_append, hchars, length_singleton]
  omega

theorem addLine_eq (total : Int64) (bytes : List UInt8) :
    addLine total bytes = total + Int64.ofNat (encodedLine bytes).length := by
  unfold addLine
  rw [foldl_twoByteCount, length_encodedLine, Int64.ofNat_add, Int64.ofNat_add, Int64.add_assoc]
  exact rfl

theorem sizeLines_eq (lines : List (Option JavaString)) (total : Int64) :
    sizeLines lines total = (lines.mapM latin1Line).map fun vs =>
      total + Int64.ofNat (vs.flatMap encodedLine).length := by
  induction lines generalizing total with
  | nil => exact congrArg some (Int64.add_zero total).symm
  | cons line lines ih =>
    rw [mapM_cons]
    cases line with
    | none => rfl
    | some string =>
      obtain ⟨bytes, coder⟩ := string
      cases coder with
      | utf16 => rfl
      | latin1 =>
        show sizeLines lines (addLine total bytes) = _
        rw [ih, addLine_eq]
        show _ = ((lines.mapM latin1Line).bind fun vs => some (bytes :: vs)).map _
        cases lines.mapM latin1Line with
        | none => rfl
        | some vs =>
          show some (total + _ + _) =
            some (total + Int64.ofNat ((bytes :: vs).flatMap encodedLine).length)
          rw [flatMap_cons, length_append, Int64.ofNat_add, Int64.add_assoc]

variable {lines : List (Option JavaString)}

/-- The second pass writes the encoding of the lines. -/
theorem texts_linePieces {vs : List (List UInt8)} (h : lines.mapM latin1Line = some vs) :
    texts (lines.flatMap linePieces) = vs.flatMap encodedLine := by
  induction lines generalizing vs with
  | nil =>
    cases h
    rfl
  | cons line lines ih =>
    rw [mapM_cons] at h
    obtain ⟨v, hv, hrest⟩ := Option.bind_eq_some_iff.mp h
    obtain ⟨us, hus, hvs⟩ := Option.bind_eq_some_iff.mp hrest
    cases hvs
    have hline : texts (linePieces line) = encodedLine v := by
      cases line with
      | none => exact absurd hv (by simp [latin1Line])
      | some string =>
        obtain ⟨bytes, coder⟩ := string
        cases coder with
        | utf16 => exact absurd hv (by simp [latin1Line])
        | latin1 =>
          obtain rfl : bytes = v := Option.some.inj hv
          show texts (bytes.flatMap latin1Pieces ++ [.put 0x0A]) = encodedLine bytes
          rw [texts_append]
          unfold texts encodedLine
          rw [flatMap_assoc]
          congr 1
          apply flatMap_congr
          intro b _
          exact texts_latin1Pieces b
    rw [flatMap_cons, texts_append, hline, ih hus, flatMap_cons]

theorem plain_linePieces (lines : List (Option JavaString)) :
    ∀ p ∈ lines.flatMap linePieces, p.Plain := by
  intro p hp
  obtain ⟨line, -, hline⟩ := mem_flatMap.mp hp
  rcases mem_append.mp hline with hchar | hlast
  · obtain ⟨b, -, hb⟩ := mem_flatMap.mp hchar
    unfold latin1Pieces at hb
    split at hb
    · obtain rfl := mem_singleton.mp hb
      trivial
    · rcases mem_cons.mp hb with rfl | hb
      · trivial
      · obtain rfl := mem_singleton.mp hb
        trivial
  · obtain rfl := mem_singleton.mp hlast
    trivial

theorem twoByteCount_le (bytes : List UInt8) : twoByteCount bytes ≤ bytes.length := by
  induction bytes with
  | nil => exact le_refl 0
  | cons b bytes ih =>
    have hbit : (b >>> 7).toNat ≤ 1 := by
      have hlt := b.toNat_lt
      have hvalue : (b >>> 7).toNat = b.toNat / 128 := by
        rw [UInt8.toNat_shiftRight, Nat.shiftRight_eq_div_pow]
        exact rfl
      omega
    unfold twoByteCount at ih ⊢
    rw [map_cons, sum_cons, length_cons]
    omega

theorem latin1Line_some {line : Option JavaString} {v : List UInt8} (h : latin1Line line = some v) :
    ∃ string ∈ line, string.value = v := by
  cases line with
  | none => exact absurd h (by simp [latin1Line])
  | some string =>
    obtain ⟨bytes, coder⟩ := string
    cases coder with
    | utf16 => exact absurd h (by simp [latin1Line])
    | latin1 => exact ⟨_, rfl, Option.some.inj h⟩

/-- The size of the output is a number of 63 bits. -/
theorem length_encoded_lt {vs : List (List UInt8)}
    (hbytes : ∀ line ∈ lines, ∀ string ∈ line, string.value.length < 2 ^ 31)
    (h : lines.mapM latin1Line = some vs) :
    (vs.flatMap encodedLine).length ≤ lines.length * (2 ^ 32 - 1) := by
  induction lines generalizing vs with
  | nil =>
    cases h
    exact Nat.zero_le _
  | cons line lines ih =>
    rw [mapM_cons] at h
    obtain ⟨v, hv, hrest⟩ := Option.bind_eq_some_iff.mp h
    obtain ⟨us, hus, hvs⟩ := Option.bind_eq_some_iff.mp hrest
    cases hvs
    obtain ⟨string, hstring, rfl⟩ := latin1Line_some hv
    have hlt := hbytes line mem_cons_self string hstring
    have htwo := twoByteCount_le string.value
    have hlines := ih (fun l hl => hbytes l (mem_cons_of_mem _ hl)) hus
    rw [flatMap_cons, length_append, length_encodedLine, length_cons, Nat.succ_mul]
    omega

/-- What the native makes of lines that it can encode: the first pass finds the size, the second one
fills a block of that size with the encoding and writes no byte more, the result is the encoding if
it can be allocated, and the block is freed. -/
structure EncodesLines (malloc : Malloc) (newArray : ℕ → Bool) (text : List UInt8)
    (r : LineEncoding) : Prop where
  total : ∃ total, r.total = some total ∧ total.toInt = text.length
  allocated : r.block.isSome = (malloc (max text.length 1)).isSome
  block : ∀ a ∈ r.block, a.capacity = max text.length 1 ∧ a.Exact text
  result : r.result = if r.block.isSome ∧ newArray text.length then some text else none
  effects : r.effects =
    if r.block.isSome then
      if newArray text.length then
        [.malloc (max text.length 1), .newArray text.length, .free]
      else [.malloc (max text.length 1), .free]
    else []

structure RefusesLines (r : LineEncoding) : Prop where
  block : r.block = none
  result : r.result = none
  effects : r.effects = []

theorem refusesLines_refused (total : Option Int64) : RefusesLines (.refused total) :=
  ⟨rfl, rfl, rfl⟩

theorem toInt_ofNat_of_lt {n : ℕ} (h : n < 2 ^ 63) : (Int64.ofNat n).toInt = n :=
  Int64.toInt_ofNat_of_lt h

/-- The second pass, in a block of the size that the first one has found. -/
theorem writeLines_encodes {malloc : Malloc} {newArray : ℕ → Bool} {vs : List (List UInt8)}
    (h : lines.mapM latin1Line = some vs) (hlength : (vs.flatMap encodedLine).length < 2 ^ 31) :
    EncodesLines malloc newArray (vs.flatMap encodedLine)
      (writeLines malloc newArray lines (Int64.ofNat (vs.flatMap encodedLine).length)) := by
  have htexts := texts_linePieces h
  generalize vs.flatMap encodedLine = text at *
  have htotal : (Int64.ofNat text.length).toInt = text.length := toInt_ofNat_of_lt (by omega)
  have hcapacity : (if 0 < Int64.ofNat text.length then
      (Int64.ofNat text.length).toInt.toNat else 1) = max text.length 1 := by
    simp only [Int64.lt_iff_toInt_lt, htotal, Int.toNat_natCast]
    show (if 0 < (text.length : ℤ) then text.length else 1) = _
    split <;> omega
  unfold writeLines
  dsimp only
  rw [hcapacity]
  cases hmalloc : malloc (max text.length 1) with
  | none =>
    refine ⟨⟨_, rfl, htotal⟩, by rw [hmalloc]; rfl, fun _ ha => ?_, rfl, rfl⟩
    exact absurd ha (by simp [LineEncoding.refused])
  | some block =>
    have hout : (emitAll sizeWord (max text.length 1) 0 ⟨block, 0, 0⟩
        (lines.flatMap linePieces)).out = text.length := by
      rw [out_emitAll, htexts]
      exact Nat.zero_add _
    obtain ⟨htext, hpeak⟩ : (emitAll sizeWord (max text.length 1) 0 ⟨block, 0, 0⟩
        (lines.flatMap linePieces)).text = [] ++ texts (lines.flatMap linePieces) ∧
        (emitAll sizeWord (max text.length 1) 0 ⟨block, 0, 0⟩
          (lines.flatMap linePieces)).peak ≤ max text.length 1 := by
      apply emitAll_plain (plain_linePieces lines) (Nat.zero_le _)
      rw [htexts]
      exact (Nat.zero_add _).trans_le (le_max_left _ _)
    rw [nil_append, htexts] at htext
    have hexact : Assembly.Exact ⟨max text.length 1, emitAll sizeWord (max text.length 1) 0
        ⟨block, 0, 0⟩ (lines.flatMap linePieces)⟩ text := ⟨hpeak, htext⟩
    dsimp only
    rw [hout, htext]
    split
    · rename_i hnew
      refine ⟨⟨_, rfl, htotal⟩, by rw [hmalloc]; rfl, ?_, (if_pos ⟨rfl, hnew⟩).symm, ?_⟩
      · intro a ha
        cases ha
        exact ⟨rfl, hexact⟩
      · exact (if_pos hnew).symm
    · rename_i hnew
      refine ⟨⟨_, rfl, htotal⟩, by rw [hmalloc]; rfl, ?_,
        (if_neg fun hboth => hnew hboth.2).symm, ?_⟩
      · intro a ha
        cases ha
        exact ⟨rfl, hexact⟩
      · exact (if_neg hnew).symm

/-- The native returns the UTF-8 encoding of the counted lines, and it refuses exactly the calls
whose lines cannot be counted or encoded, or whose encoding is too long for an array. -/
theorem encodeLinesUtf8_right (malloc : Malloc) (newArray : ℕ → Bool) (lines : Option LineArray)
    (count : Int32) :
    match countedLines lines count.toInt with
    | none => RefusesLines (encodeLinesUtf8 malloc newArray lines count)
    | some vs =>
      if (vs.flatMap encodedLine).length < 2 ^ 31 then
        EncodesLines malloc newArray (vs.flatMap encodedLine)
          (encodeLinesUtf8 malloc newArray lines count)
      else RefusesLines (encodeLinesUtf8 malloc newArray lines count) := by
  cases lines with
  | none => exact refusesLines_refused none
  | some array =>
    unfold encodeLinesUtf8 countedLines
    simp only [Option.bind_some, Int32.lt_iff_toInt_lt]
    by_cases hcount : 0 ≤ count.toInt ∧ count.toInt ≤ array.lines.length
    · have hargs :
          ¬ (count.toInt < (0 : Int32).toInt ∨ (array.lines.length : ℤ) < count.toInt) := by
        have hzero : (0 : Int32).toInt = 0 := rfl
        omega
      rw [if_pos hcount, if_neg hargs, sizeLines_eq]
      cases hlines : (array.lines.take count.toInt.toNat).mapM latin1Line with
      | none => exact refusesLines_refused none
      | some vs =>
        have hbound := length_encoded_lt
          (fun line hline => array.bytes_lt line (mem_of_mem_take hline)) hlines
        have htake : (array.lines.take count.toInt.toNat).length < 2 ^ 31 :=
          (length_take_le' _ _).trans_lt array.length_lt
        have htotal : (Int64.ofNat (vs.flatMap encodedLine).length).toInt =
            (vs.flatMap encodedLine).length := toInt_ofNat_of_lt (by omega)
        have hmax : (Int64.ofNat (2 ^ 31 - 1)).toInt = 2 ^ 31 - 1 := rfl
        simp only [Option.map_some, Int64.zero_add, Int64.lt_iff_toInt_lt, htotal, hmax]
        by_cases hlength : (vs.flatMap encodedLine).length < 2 ^ 31
        · rw [if_pos hlength, if_neg (by omega)]
          exact writeLines_encodes hlines hlength
        · rw [if_neg hlength, if_pos (by omega)]
          exact refusesLines_refused _
    · rw [if_neg hcount]
      have hargs : count.toInt < (0 : Int32).toInt ∨ (array.lines.length : ℤ) < count.toInt := by
        have hzero : (0 : Int32).toInt = 0 := rfl
        omega
      rw [if_pos hargs]
      exact refusesLines_refused none

end TraceJvm
