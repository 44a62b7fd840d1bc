import Mathlib.Data.List.Induction
import TraceJvm.TextOps

/-! Exactly when the natives of `TextOps` keep to the buffers that they allocate: the capacities
that they compute cover the texts as long as they do not wrap. -/
namespace TraceJvm

open AppendBuffer JsonString List

variable {malloc : Malloc}

/-! ### Escaping -/

variable {formatted : List UInt8 → Piece UInt8}

theorem texts_escapePieces (h : ∀ t, (formatted t).text = t) (ch : UInt8) :
    texts (escapePieces formatted ch) = escapedByte ch := by
  unfold escapePieces escapedByte
  iterate 5
    split
    · decide
  split
  · show (formatted _).text ++ [] = _
    rw [h, append_nil]
  · exact rfl

theorem texts_flatMap_escapePieces (h : ∀ t, (formatted t).text = t) (bytes : List UInt8) :
    texts (bytes.flatMap (escapePieces formatted)) = bytes.flatMap escapedByte := by
  unfold texts
  rw [flatMap_assoc]
  apply flatMap_congr
  intro ch _
  exact texts_escapePieces h ch

theorem texts_writeJsonEscaped (bytes : List UInt8) :
    texts (writeJsonEscaped bytes) = quoted bytes := by
  unfold writeJsonEscaped quoted
  rw [texts_append]
  show 0x22 :: texts (bytes.flatMap _) ++ [0x22] = _
  rw [texts_flatMap_escapePieces fun _ => rfl]

theorem texts_jsonEscapeLatin1 (bytes : List UInt8) :
    texts (jsonEscapeLatin1 bytes ++ [.put 0x22]) = quoted bytes := by
  unfold jsonEscapeLatin1 quoted
  rw [texts_append]
  show 0x22 :: texts (bytes.flatMap _) ++ [0x22] = _
  rw [texts_flatMap_escapePieces fun _ => rfl]

theorem length_escapedByte_le (ch : UInt8) : (escapedByte ch).length ≤ 6 := by
  unfold escapedByte
  iterate 5
    split
    · decide
  split
  · exact le_refl 6
  · exact Nat.succ_le_succ (Nat.zero_le 5)

variable {n : ℕ}

theorem length_flatMap_le {α β : Type*} {f : α → List β} (h : ∀ x, (f x).length ≤ n)
    (xs : List α) : (xs.flatMap f).length ≤ xs.length * n := by
  induction xs with
  | nil => exact Nat.zero_le _
  | cons x xs ih =>
    have hx := h x
    rw [flatMap_cons, length_append, length_cons, Nat.succ_mul]
    omega

theorem length_quoted_le (bytes : List UInt8) : (quoted bytes).length ≤ bytes.length * 6 + 2 := by
  have h := length_flatMap_le length_escapedByte_le bytes
  unfold quoted
  rw [length_append, length_cons, length_singleton]
  omega

theorem hexByte_units (h : n < 16) : (hexByte n).toUInt16 = hexUnit n := by
  interval_cases n <;> decide

theorem unicodeEscape_units (ch : UInt8) : (unicodeEscape ch).map UInt8.toUInt16 =
    0x5C :: 0x75 :: hexUnits ch.toUInt16.toNat := by
  have hlt := ch.toNat_lt
  have hhigh : ch.toNat / 16 % 16 = ch.toNat / 16 := by omega
  have hzero : ch.toNat / 4096 % 16 = 0 := by omega
  have hzero' : ch.toNat / 256 % 16 = 0 := by omega
  unfold unicodeEscape hexUnits
  rw [UInt8.toNat_toUInt16, hhigh, hzero, hzero', map_append, map_cons, map_cons,
    hexByte_units (by omega), hexByte_units (by omega)]
  exact rfl

theorem toUInt16_injective {a b : UInt8} (h : a.toUInt16 = b.toUInt16) : a = b := by
  apply UInt8.toNat_inj.mp
  rw [← UInt8.toNat_toUInt16, ← UInt8.toNat_toUInt16, h]

theorem reads_escapedByte (ch : UInt8) :
    Reads ((escapedByte ch).map UInt8.toUInt16) ch.toUInt16 := by
  unfold escapedByte
  iterate 5
    split
    · rename_i h
      subst h
      exact reads_short (by decide)
  split
  · rw [unicodeEscape_units]
    exact reads_unicode ch.toUInt16
  · rename_i hquote hback _ _ _ hcontrol
    apply reads_plain
    · exact fun h => hquote (toUInt16_injective h)
    · exact fun h => hback (toUInt16_injective h)
    · rw [UInt16.lt_iff_toNat_lt, UInt8.toNat_toUInt16]
      rw [UInt8.lt_iff_toNat_lt] at hcontrol
      exact hcontrol

theorem parseLiteral_quoted (bytes : List UInt8) :
    parseLiteral ((quoted bytes).map UInt8.toUInt16) = some (bytes.map UInt8.toUInt16) := by
  have hquoted : (quoted bytes).map UInt8.toUInt16 =
      0x22 :: bytes.flatMap (fun ch => (escapedByte ch).map UInt8.toUInt16) ++ [0x22] := by
    unfold quoted
    rw [map_append, map_cons, map_flatMap]
    exact rfl
  rw [hquoted]
  exact parseLiteral_flatMap _ UInt8.toUInt16 fun ch _ => reads_escapedByte ch

/-! ### Numbers -/

theorem length_digits_le {k : ℕ} (hk : 0 < k) (h : n < 10 ^ k) : (Nat.toDigits 10 n).length ≤ k :=
  (Nat.length_toDigits_le_iff (by decide) hk).mpr h

theorem length_decimal_le {z : ℤ} {k : ℕ} (hk : 0 < k) (h : z.natAbs < 10 ^ k) :
    (decimal z).length ≤ k + 1 := by
  have hdigits := length_digits_le hk h
  unfold decimal
  rw [length_append, length_map]
  split
  · show 1 + _ ≤ k + 1
    omega
  · show 0 + _ ≤ k + 1
    omega

theorem length_decimal_int32 (x : Int32) : (decimal x.toInt).length ≤ 11 := by
  have hlow := x.le_toInt
  have hhigh := x.toInt_lt
  apply length_decimal_le (by decide)
  omega

theorem length_decimal_int64 (x : Int64) : (decimal x.toInt).length ≤ 20 := by
  have hlow := x.le_toInt
  have hhigh := x.toInt_lt
  apply length_decimal_le (by decide)
  omega

theorem commaSeparated_concat (ts : List (List UInt8)) (t : List UInt8) :
    commaSeparated (ts ++ [t]) = commaSeparated ts ++ (if ts = [] then [] else [0x2C]) ++ t := by
  cases ts with
  | nil => exact (append_nil t).trans rfl
  | cons u us =>
    show u ++ (us ++ [t]).flatMap _ = u ++ us.flatMap _ ++ [0x2C] ++ t
    rw [flatMap_append, append_assoc, append_assoc]
    simp

theorem length_commaSeparated_le {ts : List (List UInt8)} {k : ℕ} (h : ∀ t ∈ ts, t.length ≤ k) :
    (commaSeparated ts).length ≤ ts.length * (k + 1) := by
  induction ts using List.reverseRecOn with
  | nil => exact Nat.zero_le _
  | append_singleton ts t ih =>
    have ht := h t (mem_append_right _ (mem_singleton.mpr rfl))
    have hts := ih fun u hu => h u (mem_append_left _ hu)
    have hcomma : (if ts = [] then [] else [(0x2C : UInt8)]).length ≤ 1 := by
      split
      · exact Nat.zero_le 1
      · exact le_refl 1
    rw [commaSeparated_concat, length_append, length_append, length_append,
      length_singleton, Nat.succ_mul]
    omega

theorem texts_numberPieces {numbers : List ℤ} (h : n ≤ numbers.length) :
    texts (numberPieces numbers n) = commaSeparated ((numbers.take n).map decimal) := by
  induction n with
  | zero => rfl
  | succ n ih =>
    have hlt : n < numbers.length := h
    have hempty : (numbers.take n).map decimal = [] ↔ n = 0 := by
      rw [map_eq_nil_iff, take_eq_nil_iff]
      constructor
      · rintro (hn | hnil)
        · exact hn
        · rw [hnil] at hlt
          exact absurd hlt (Nat.not_lt_zero n)
      · exact Or.inl
    have hpieces : numberPieces numbers (n + 1) = numberPieces numbers n ++
        ((if 0 < n then [.put 0x2C] else []) ++ [.formatWithin (decimal (numbers.getD n 0))]) := by
      unfold numberPieces
      rw [range_succ, flatMap_append, flatMap_singleton]
    rw [hpieces, texts_append, ih (Nat.le_of_lt hlt), take_succ_eq_append_getElem hlt,
      map_append, map_singleton, commaSeparated_concat, append_assoc,
      getD_eq_getElem?_getD, getElem?_eq_getElem hlt, Option.getD_some]
    congr 1
    by_cases hn : n = 0
    · rw [if_pos (hempty.mpr hn), if_neg (by omega)]
      exact append_nil _
    · rw [if_neg (fun hnil => hn (hempty.mp hnil)), if_pos (by omega)]
      simp [texts, Piece.text]

theorem length_decimal_number (array : NumberArray) :
    ∀ z ∈ array.numbers, (decimal z).length ≤ if array.wide then 20 else 11 := by
  intro z hz
  cases array with
  | ints data =>
    obtain ⟨x, -, rfl⟩ := mem_map.mp hz
    exact length_decimal_int32 x
  | longs data =>
    obtain ⟨x, -, rfl⟩ := mem_map.mp hz
    exact length_decimal_int64 x

theorem length_truncationMarker_le {z : ℤ} (h : z.natAbs < 10 ^ 10) :
    (truncationMarker z).length ≤ 46 := by
  have hdecimal := length_decimal_le (by decide : 0 < 10) h
  unfold truncationMarker
  rw [length_append, length_append]
  show 34 + (decimal z).length + 1 ≤ 46
  omega

/-! ### What is assembled -/

/-- A call that is accepted assembles its text within the capacity that it asks for. -/
structure Assembles (malloc : Malloc) (call : TextCall) (t : List UInt8) : Prop where
  text : call.text = some t
  run : ∃ ps last, call.run malloc = assemble malloc call.capacity ps last ∧ texts ps ++ [last] = t
  length : t.length ≤ call.capacity

/-- The pieces after those of the numbers. -/
theorem texts_marker {numbers : List ℤ} {emitted total : Int32} (hlow : 0 ≤ emitted.toInt)
    (hhigh : emitted.toInt ≤ numbers.length) :
    texts (.put 0x5B :: numberPieces numbers emitted.toInt.toNat ++
      if emitted < total then
        (if 0 < emitted then [.put 0x2C] else []) ++
          [.formatWithin (truncationMarker (total.toInt - emitted.toInt))]
      else []) ++ [0x5D] = numberArrayText numbers emitted.toInt total.toInt := by
  have hn : emitted.toInt.toNat ≤ numbers.length := by omega
  have hempty : (numbers.take emitted.toInt.toNat).map decimal = [] ↔ ¬ 0 < emitted := by
    rw [map_eq_nil_iff, take_eq_nil_iff, Int32.lt_iff_toInt_lt]
    show _ ↔ ¬ 0 < emitted.toInt
    constructor
    · rintro (hz | hnil)
      · omega
      · rw [hnil] at hn
        have hzero : emitted.toInt.toNat ≤ 0 := hn
        omega
    · intro hz
      left
      omega
  rw [texts_append]
  show 0x5B :: texts (numberPieces numbers emitted.toInt.toNat) ++ _ ++ _ = _
  rw [texts_numberPieces hn]
  unfold numberArrayText
  by_cases htotal : emitted < total
  · rw [if_pos htotal, if_pos (Int32.lt_iff_toInt_lt.mp htotal), commaSeparated_concat]
    by_cases hpos : 0 < emitted
    · rw [if_pos hpos, if_neg (fun hnil => hempty.mp hnil hpos)]
      simp [texts, Piece.text]
    · rw [if_neg hpos, if_pos (hempty.mpr hpos)]
      simp [texts, Piece.text]
  · rw [if_neg htotal, if_neg (fun hlt => htotal (Int32.lt_iff_toInt_lt.mpr hlt)), append_nil]
    exact congrArg (· ++ [0x5D]) (append_nil _)

theorem length_numberArrayText_le {array : NumberArray} {emitted total : ℤ} (hlow : 0 ≤ emitted)
    (hhigh : emitted ≤ array.numbers.length) (htotal : total < 2 ^ 31) :
    (numberArrayText array.numbers emitted total).length ≤
      numberArrayCapacity emitted.toNat array.wide := by
  have hitems : ∀ t ∈ (array.numbers.take emitted.toNat).map decimal,
      t.length ≤ if array.wide then 20 else 11 := by
    intro t ht
    obtain ⟨z, hz, rfl⟩ := mem_map.mp ht
    exact length_decimal_number array z (mem_of_mem_take hz)
  have hnumbers := length_commaSeparated_le hitems
  rw [length_map, length_take, min_eq_left (by omega)] at hnumbers
  have hmarker : (commaSeparated ((array.numbers.take emitted.toNat).map decimal ++
      if emitted < total then [truncationMarker (total - emitted)] else [])).length ≤
      (commaSeparated ((array.numbers.take emitted.toNat).map decimal)).length + 47 := by
    split
    · have hlength := length_truncationMarker_le (z := total - emitted) (by omega)
      rw [commaSeparated_concat, length_append, length_append]
      split
      · rw [length_nil]
        omega
      · rw [length_singleton]
        omega
    · rw [append_nil]
      exact Nat.le_add_right _ _
  unfold numberArrayText numberArrayCapacity
  rw [length_append, length_cons, length_singleton]
  cases hwide : array.wide with
  | true =>
    rw [hwide] at hnumbers
    simp only [if_true] at hnumbers ⊢
    omega
  | false =>
    rw [hwide] at hnumbers
    simp only [Bool.false_eq_true, if_false] at hnumbers ⊢
    omega

variable {a : Assembly}

theorem numberArray_assembles {array : Option NumberArray} {emitted total : Int32}
    (h : jsonNumberArray malloc array emitted total = some a) :
    ∃ t, Assembles malloc (.numberArray array emitted total) t := by
  cases array with
  | none => exact absurd h (by simp [jsonNumberArray])
  | some array =>
    unfold jsonNumberArray at h
    dsimp only at h
    split at h
    · exact absurd h (by simp)
    · rename_i hargs
      rw [Int32.lt_iff_toInt_lt, Int32.lt_iff_toInt_lt] at hargs
      have hzero : (0 : Int32).toInt = 0 := rfl
      have hlow : 0 ≤ emitted.toInt := by omega
      have hhigh : emitted.toInt ≤ array.numbers.length := by omega
      refine ⟨numberArrayText array.numbers emitted.toInt total.toInt, ?_, ?_, ?_⟩
      · exact if_pos ⟨hlow, hhigh, by omega⟩
      · refine ⟨_, _, ?_, texts_marker hlow hhigh⟩
        show jsonNumberArray malloc (some array) emitted total = _
        unfold jsonNumberArray
        dsimp only
        rw [if_neg (by rw [Int32.lt_iff_toInt_lt, Int32.lt_iff_toInt_lt]; omega)]
        exact rfl
      · exact length_numberArrayText_le hlow hhigh total.toInt_lt

variable {value : Option JavaString}

theorem escape_assembles
    (h : jsonEscape0 malloc value = some a) : ∃ t, Assembles malloc (.escape value) t := by
  cases value with
  | none => exact absurd h (by simp [jsonEscape0])
  | some value =>
    obtain ⟨bytes, coder⟩ := value
    cases coder with
    | utf16 => exact absurd h (by simp [jsonEscape0])
    | latin1 =>
      refine ⟨quoted bytes, rfl, ⟨jsonEscapeLatin1 bytes, 0x22, rfl, ?_⟩, ?_⟩
      · rw [← texts_jsonEscapeLatin1, texts_append]
        exact rfl
      · have hlength := length_quoted_le bytes
        show (quoted bytes).length ≤ bytes.length * 6 + 3
        omega

def viewOf (b : Option (List UInt8)) : Latin1View := ⟨b.getD [], b.isSome, true⟩

theorem texts_verbatimField (label : String) (b : Option (List UInt8)) :
    texts (verbatimField label (viewOf b)) = jsonField label b := by
  cases b with
  | none => rfl
  | some t =>
    show ascii label ++ (t ++ []) = ascii label ++ t
    rw [append_nil]

theorem texts_cons_format (t : List UInt8) (ps : List (Piece UInt8)) :
    texts (.format t :: ps) = t ++ texts ps := rfl

theorem texts_cons_copy (t : List UInt8) (ps : List (Piece UInt8)) :
    texts (.copy t :: ps) = t ++ texts ps := rfl

theorem texts_nil : texts ([] : List (Piece UInt8)) = [] := rfl

theorem texts_suffix (b : Option (List UInt8)) :
    texts (if (viewOf b).present then [.copy (viewOf b).bytes] else []) = b.getD [] := by
  cases b with
  | none => rfl
  | some t => exact append_nil t

theorem texts_record (header : List UInt8) (line : Int32)
    (name path sources value function suffix : Option (List UInt8)) :
    texts (recordPieces (viewOf (some header)) line (viewOf name) (viewOf path) (viewOf sources)
      (viewOf value) (viewOf function) (viewOf suffix)) ++ [0x7D] =
      recordText header line.toInt name path sources value function suffix := by
  unfold recordPieces recordText
  rw [texts_append, texts_append, texts_append, texts_append, texts_verbatimField, texts_suffix,
    texts_cons_copy, texts_cons_format, texts_nil]
  congr 4
  · congr 1
    · show header ++ _ = _
      simp only [append_nil, append_assoc]
    · cases function with
      | none => rfl
      | some f =>
        show texts (.format _ :: writeJsonEscaped f) = _
        rw [texts_cons_format, texts_writeJsonEscaped]
        exact rfl
  · cases name with
    | none => rfl
    | some n =>
      show texts (.format _ :: writeJsonEscaped n ++ verbatimField _ (viewOf path) ++
        verbatimField _ (viewOf sources) ++ [.put 0x7D]) = _
      rw [texts_append, texts_append, texts_append, texts_cons_format, texts_writeJsonEscaped,
        texts_verbatimField, texts_verbatimField]
      exact rfl

theorem texts_indexedRecord (header : List UInt8) (line : Int32) (name : List UInt8)
    (index : Int32) (sources : Option (List UInt8)) (value : List UInt8)
    (suffix : Option (List UInt8)) :
    texts (indexedRecordPieces (viewOf (some header)) line (viewOf (some name)) index
      (viewOf sources) (viewOf (some value)) (viewOf suffix)) ++ [0x7D] =
      indexedRecordText header line.toInt name index.toInt sources value suffix := by
  have hpath : ascii ",\"path\":[" = ascii ",\"path\":" ++ ascii "[" := by decide
  have hvalue : ascii "\x7d,\"value\":" = 0x7D :: ascii ",\"value\":" := by decide
  unfold indexedRecordPieces indexedRecordText recordText
  rw [texts_append, texts_append, texts_append, texts_append, texts_append, texts_verbatimField,
    texts_suffix, texts_writeJsonEscaped, texts_cons_copy, texts_cons_format, texts_cons_format,
    texts_cons_format, texts_cons_copy, texts_nil, hpath, hvalue]
  simp [viewOf, jsonField]

theorem length_field_le (label : String) (b : Option (List UInt8)) :
    (jsonField label b).length ≤ (ascii label).length + (viewOf b).bytes.length := by
  cases b with
  | none => exact Nat.zero_le _
  | some t => exact le_of_eq length_append

theorem length_field_quoted_le (label : String) (b : Option (List UInt8)) :
    (jsonField label (b.map quoted)).length ≤
      (ascii label).length + ((viewOf b).bytes.length * 6 + 2) := by
  cases b with
  | none => exact Nat.zero_le _
  | some t =>
    have hquoted := length_quoted_le t
    show (ascii label ++ quoted t).length ≤ (ascii label).length + (t.length * 6 + 2)
    rw [length_append]
    omega

theorem length_recordText_le (header : List UInt8) (line : Int32)
    (name path sources value function suffix : Option (List UInt8)) :
    (recordText header line.toInt name path sources value function suffix).length + 4 ≤
      recordCapacity (viewOf (some header)) (viewOf name) (viewOf path) (viewOf sources)
        (viewOf value) (viewOf function) (viewOf suffix) := by
  have hline := length_decimal_int32 line
  have hfunction := length_field_quoted_le ",\"function\":" function
  have hvalue := length_field_le ",\"value\":" value
  have hpath := length_field_le ",\"path\":" path
  have hsources := length_field_le ",\"indexSources\":" sources
  have htarget : (name.elim [] fun n => ascii ",\"target\":\x7b\"variable\":" ++ quoted n ++
      jsonField ",\"path\":" path ++ jsonField ",\"indexSources\":" sources ++ [0x7D]).length ≤
      (viewOf name).bytes.length * 6 + (viewOf path).bytes.length +
        (viewOf sources).bytes.length + 49 := by
    cases name with
    | none => exact Nat.zero_le _
    | some n =>
      have hquoted := length_quoted_le n
      show (_ ++ quoted n ++ _ ++ _ ++ [0x7D]).length ≤ n.length * 6 + _ + _ + 49
      rw [length_append, length_append, length_append, length_append, length_singleton]
      have hlabel : (ascii ",\"target\":\x7b\"variable\":").length = 22 := by decide
      have hlabel₂ : (ascii ",\"path\":").length = 8 := by decide
      have hlabel₃ : (ascii ",\"indexSources\":").length = 16 := by decide
      omega
  have hsuffix : (suffix.getD []).length = (viewOf suffix).bytes.length := rfl
  have hlabel : (ascii ",\"line\":").length = 8 := by decide
  have hlabel₂ : (ascii ",\"function\":").length = 12 := by decide
  have hlabel₃ : (ascii ",\"value\":").length = 9 := by decide
  unfold recordText recordCapacity
  rw [length_append, length_append, length_append, length_append,
    length_append, length_append, length_append, length_singleton]
  show _ ≤ 96 + header.length + _ + _ + _ + _ + _ + _
  omega

theorem length_indexedRecordText_le (header : List UInt8) (line : Int32) (name : List UInt8)
    (index : Int32) (sources : Option (List UInt8)) (value : List UInt8)
    (suffix : Option (List UInt8)) :
    (indexedRecordText header line.toInt name index.toInt sources value suffix).length ≤
      indexedRecordCapacity (viewOf (some header)) (viewOf (some name)) (viewOf sources)
        (viewOf (some value)) (viewOf suffix) := by
  have hrecord := length_recordText_le header line (some name)
    (some (ascii "[" ++ decimal index.toInt ++ ascii "]")) sources (some value) none suffix
  have hindex := length_decimal_int32 index
  have hpath : (viewOf (some (ascii "[" ++ decimal index.toInt ++ ascii "]"))).bytes.length =
      1 + (decimal index.toInt).length + 1 := by
    show (ascii "[" ++ decimal index.toInt ++ ascii "]").length = _
    rw [length_append, length_append]
    exact rfl
  have hfunction : (viewOf none).bytes.length = 0 := rfl
  unfold recordCapacity at hrecord
  unfold indexedRecordText indexedRecordCapacity
  omega

variable {x : Option JavaString}

theorem viewLatin1_eq (h : (viewLatin1 x).ok = true) :
    ∃ b, latin1Bytes x = some b ∧ viewLatin1 x = viewOf b := by
  cases x with
  | none => exact ⟨none, rfl, rfl⟩
  | some string =>
    obtain ⟨value, coder⟩ := string
    cases coder with
    | latin1 => exact ⟨some value, rfl, rfl⟩
    | utf16 => exact absurd h Bool.false_ne_true

theorem viewLatin1_present (h : (viewLatin1 x).ok = true)
    (hpresent : (viewLatin1 x).present = true) :
    ∃ t, latin1Bytes x = some (some t) ∧ viewLatin1 x = viewOf (some t) := by
  obtain ⟨b, hb, hview⟩ := viewLatin1_eq h
  rw [hview] at hpresent
  cases b with
  | none => exact absurd hpresent Bool.false_ne_true
  | some t => exact ⟨t, hb, hview⟩

variable {header name sources suffix : Option JavaString}

theorem record_assembles {line : Int32} {path function : Option JavaString}
    (h : buildRecord0 malloc header line name path sources value function suffix = some a) :
    ∃ t, Assembles malloc (.record header line name path sources value function suffix) t := by
  unfold buildRecord0 at h
  dsimp only at h
  split at h
  · exact absurd h (by simp)
  · rename_i hargs
    simp only [Bool.or_eq_true, Bool.not_eq_true', not_or, Bool.not_eq_false] at hargs
    obtain ⟨⟨⟨⟨⟨⟨⟨hheader, hname⟩, hpath⟩, hsources⟩, hvalue⟩, hfunction⟩, hsuffix⟩, hpresent⟩ :=
      hargs
    obtain ⟨bheader, hheader, vheader⟩ := viewLatin1_present hheader hpresent
    obtain ⟨bname, hname, vname⟩ := viewLatin1_eq hname
    obtain ⟨bpath, hpath, vpath⟩ := viewLatin1_eq hpath
    obtain ⟨bsources, hsources, vsources⟩ := viewLatin1_eq hsources
    obtain ⟨bvalue, hvalue, vvalue⟩ := viewLatin1_eq hvalue
    obtain ⟨bfunction, hfunction, vfunction⟩ := viewLatin1_eq hfunction
    obtain ⟨bsuffix, hsuffix, vsuffix⟩ := viewLatin1_eq hsuffix
    refine ⟨recordText bheader line.toInt bname bpath bsources bvalue bfunction bsuffix, ?_, ?_, ?_⟩
    · simp only [TextCall.text, hheader, hname, hpath, hsources, hvalue, hfunction, hsuffix]
      exact rfl
    · refine ⟨_, _, ?_, texts_record bheader line bname bpath bsources bvalue bfunction bsuffix⟩
      simp only [TextCall.run, TextCall.capacity, buildRecord0, vheader, vname, vpath, vsources,
        vvalue, vfunction, vsuffix]
      exact rfl
    · have hlength :=
        length_recordText_le bheader line bname bpath bsources bvalue bfunction bsuffix
      simp only [TextCall.capacity, vheader, vname, vpath, vsources, vvalue, vfunction, vsuffix]
      omega

theorem indexedRecord_assembles {line : Int32} {index : Int32}
    (h : buildIndexedRecord0 malloc header line name index sources value suffix = some a) :
    ∃ t, Assembles malloc (.indexedRecord header line name index sources value suffix) t := by
  unfold buildIndexedRecord0 at h
  dsimp only at h
  split at h
  · exact absurd h (by simp)
  · rename_i hargs
    simp only [Bool.or_eq_true, Bool.not_eq_true', not_or, Bool.not_eq_false] at hargs
    obtain ⟨⟨⟨⟨⟨⟨⟨hheader, hname⟩, hsources⟩, hvalue⟩, hsuffix⟩, hhas⟩, hhasName⟩, hhasValue⟩ :=
      hargs
    obtain ⟨bheader, hheader, vheader⟩ := viewLatin1_present hheader hhas
    obtain ⟨bname, hname, vname⟩ := viewLatin1_present hname hhasName
    obtain ⟨bsources, hsources, vsources⟩ := viewLatin1_eq hsources
    obtain ⟨bvalue, hvalue, vvalue⟩ := viewLatin1_present hvalue hhasValue
    obtain ⟨bsuffix, hsuffix, vsuffix⟩ := viewLatin1_eq hsuffix
    refine ⟨indexedRecordText bheader line.toInt bname index.toInt bsources bvalue bsuffix,
      ?_, ?_, ?_⟩
    · simp only [TextCall.text, hheader, hname, hsources, hvalue, hsuffix]
      exact rfl
    · refine ⟨_, _, ?_, texts_indexedRecord bheader line bname index bsources bvalue bsuffix⟩
      simp only [TextCall.run, TextCall.capacity, buildIndexedRecord0, vheader, vname, vsources,
        vvalue, vsuffix]
      exact rfl
    · simp only [TextCall.capacity, vheader, vname, vsources, vvalue, vsuffix]
      exact length_indexedRecordText_le bheader line bname index bsources bvalue bsuffix

theorem TextCall.assembles {call : TextCall} (h : call.run malloc = some a) :
    ∃ t, Assembles malloc call t := by
  cases call with
  | numberArray array emitted total => exact numberArray_assembles h
  | escape value => exact escape_assembles h
  | record header line name path sources value function suffix => exact record_assembles h
  | indexedRecord header line name index sources value suffix => exact indexedRecord_assembles h

/-- The block holds the text exactly if it is large enough for it. -/
theorem exact_assemble_iff {capacity : ℕ} {ps : List (Piece UInt8)} {last : UInt8}
    (h : assemble malloc capacity ps last = some a) :
    a.Exact (texts ps ++ [last]) ↔ (texts ps ++ [last]).length ≤ capacity % sizeWord := by
  obtain ⟨block, -, rfl⟩ := Option.map_eq_some_iff.mp h
  have hword : capacity % sizeWord < sizeWord := Nat.mod_lt _ (by decide)
  have hbounds : (emitAll sizeWord (capacity % sizeWord) 0 ⟨block, 0, 0⟩
      (ps ++ [.put last])).peak ≤ capacity % sizeWord ↔
      0 + (texts ps).length + 1 ≤ capacity % sizeWord :=
    emitAll_put hword (Nat.zero_le _) last
  have hlength : (texts ps ++ [last]).length = 0 + (texts ps).length + 1 := by
    rw [length_append, length_singleton, Nat.zero_add]
  rw [hlength]
  constructor
  · exact fun hexact => hbounds.mp hexact.bounds
  · intro hfits
    exact ⟨hbounds.mpr hfits, text_emitAll_put hword (Nat.zero_le _) last hfits⟩

/-- The natives keep to their buffers exactly if the text is not longer than what is left of the
capacity modulo 2^32, and so whenever the capacity does not wrap. Both escaping routines write the
same bytes, which stand for the characters. -/
theorem text_assembly_right_iff {call : TextCall} {a : Assembly} (h : call.run malloc = some a)
    (bytes : List UInt8) :
    (∃ t, call.text = some t ∧ (a.Exact t ↔ t.length ≤ call.capacity % sizeWord) ∧
      (call.capacity < sizeWord → t.length ≤ call.capacity % sizeWord)) ∧
    texts (jsonEscapeLatin1 bytes ++ [.put 0x22]) = texts (writeJsonEscaped bytes) ∧
    parseLiteral ((texts (writeJsonEscaped bytes)).map UInt8.toUInt16) =
      some (bytes.map UInt8.toUInt16) := by
  obtain ⟨t, hassembles⟩ := call.assembles h
  obtain ⟨ps, last, hrun, htext⟩ := hassembles.run
  rw [hrun] at h
  refine ⟨⟨t, hassembles.text, ?_, ?_⟩, ?_, ?_⟩
  · rw [← htext]
    exact exact_assemble_iff h
  · intro hword
    rw [Nat.mod_eq_of_lt hword]
    exact hassembles.length
  · rw [texts_jsonEscapeLatin1, texts_writeJsonEscaped]
  · rw [texts_writeJsonEscaped]
    exact parseLiteral_quoted bytes

/-- A quote, a control character and a byte beyond ASCII are escaped in a buffer of 21 bytes. -/
theorem text_assembly_right_iff_escape :
    ∃ a, (TextCall.escape (some ⟨[0x22, 0x01, 0xE9], .latin1⟩)).run (fun _ => some fun _ => 0) =
      some a ∧ a.capacity = 21 ∧ a.Exact (ascii "\"\\\"\\u0001" ++ [0xE9, 0x22]) := by
  have hrun : (TextCall.escape (some ⟨[0x22, 0x01, 0xE9], .latin1⟩)).run
      (fun _ => some fun _ => 0) = assemble (fun _ => some fun _ => 0) 21
        (jsonEscapeLatin1 [0x22, 0x01, 0xE9]) 0x22 := rfl
  refine ⟨_, hrun, rfl, ?_⟩
  obtain ⟨t, ht, hexact, hcovers⟩ := (text_assembly_right_iff hrun []).1
  have htext : t = ascii "\"\\\"\\u0001" ++ [0xE9, 0x22] := by
    cases ht
    decide
  rw [← htext]
  exact hexact.mpr (hcovers (by decide))

theorem length_le_quoted (bytes : List UInt8) : bytes.length ≤ (quoted bytes).length := by
  have hchars : bytes.length ≤ (bytes.flatMap escapedByte).length := by
    induction bytes with
    | nil => exact le_refl 0
    | cons ch bytes ih =>
      have hch : 0 < (escapedByte ch).length := by
        unfold escapedByte
        split_ifs
        all_goals exact Nat.succ_pos _
      rw [flatMap_cons, length_append, length_cons]
      omega
  unfold quoted
  rw [length_append, length_cons]
  omega

/-- A record of a name only, where six bytes for each character wrap. -/
theorem name_overruns_buffer (bytes : List UInt8)
    (h : (96 + bytes.length * 6) % sizeWord < bytes.length) :
    ∃ a t, (TextCall.record (some ⟨[], .latin1⟩) 1 (some ⟨bytes, .latin1⟩) none none none none
      none).run (fun _ => some fun _ => 0) = some a ∧
    (TextCall.record (some ⟨[], .latin1⟩) 1 (some ⟨bytes, .latin1⟩) none none none none
      none).text = some t ∧ ¬ a.Exact t := by
  have hname : bytes.length ≤
      (recordText [] 1 (some bytes) none none none none none).length := by
    have hquoted := length_le_quoted bytes
    unfold recordText
    simp only [Option.elim, length_append]
    omega
  have htext := texts_record [] 1 (some bytes) none none none none none
  obtain ⟨a, ha⟩ : ∃ a, assemble (fun _ => some fun _ => 0) (96 + bytes.length * 6)
      (recordPieces (viewOf (some [])) 1 (viewOf (some bytes)) (viewOf none) (viewOf none)
        (viewOf none) (viewOf none) (viewOf none)) 0x7D = some a := ⟨_, rfl⟩
  refine ⟨a, _, ha, rfl, fun hexact => ?_⟩
  have hfits := (exact_assemble_iff ha).mp (htext.symm ▸ hexact)
  rw [htext] at hfits
  exact absurd (hname.trans hfits) (Nat.not_le.mpr h)

/-- A name of 715827883 characters: six bytes for each of them are two bytes modulo 2^32. -/
theorem record_overruns_buffer :
    ∃ a t, (TextCall.record (some ⟨[], .latin1⟩) 1 (some ⟨List.replicate 715827883 0x61, .latin1⟩)
      none none none none none).run (fun _ => some fun _ => 0) = some a ∧
    (TextCall.record (some ⟨[], .latin1⟩) 1 (some ⟨List.replicate 715827883 0x61, .latin1⟩)
      none none none none none).text = some t ∧ ¬ a.Exact t := by
  apply name_overruns_buffer
  rw [length_replicate]
  decide

end TraceJvm
