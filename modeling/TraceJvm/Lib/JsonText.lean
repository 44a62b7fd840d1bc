import Mathlib.Data.List.Sort
import TraceJvm.Lib.JsonString
import TraceJvm.Lib.OrderedMap

/-! JSON texts over UTF-16 code units: `JSON.stringify` without indentation and `JSON.parse`. How
numbers are written is a parameter. -/

/-- Values with arrays and objects. The properties of an object are in their order. -/
inductive JsonTree (α : Type) where
  | leaf (a : α)
  | array (elements : List (JsonTree α))
  | object (members : List (List UInt16 × JsonTree α))

namespace JsonTree

variable {α β : Type}

mutual

variable {P : JsonTree α → Prop}

@[elab_as_elim]
theorem inductOn (leaf : ∀ a, P (.leaf a)) (array : ∀ es, (∀ e ∈ es, P e) → P (.array es))
    (object : ∀ ms, (∀ m ∈ ms, P m.2) → P (.object ms)) : ∀ t, P t
  | .leaf a => leaf a
  | .array es => array es (inductOnElements leaf array object es)
  | .object ms => object ms (inductOnMembers leaf array object ms)

theorem inductOnElements (leaf : ∀ a, P (.leaf a)) (array : ∀ es, (∀ e ∈ es, P e) → P (.array es))
    (object : ∀ ms, (∀ m ∈ ms, P m.2) → P (.object ms)) :
    ∀ es : List (JsonTree α), ∀ e ∈ es, P e
  | [], _, h => absurd h List.not_mem_nil
  | e :: es, e', h => (List.mem_cons.mp h).elim
      (fun heq => heq ▸ inductOn leaf array object e)
      (inductOnElements leaf array object es e')

theorem inductOnMembers (leaf : ∀ a, P (.leaf a)) (array : ∀ es, (∀ e ∈ es, P e) → P (.array es))
    (object : ∀ ms, (∀ m ∈ ms, P m.2) → P (.object ms)) :
    ∀ ms : List (List UInt16 × JsonTree α), ∀ m ∈ ms, P m.2
  | [], _, h => absurd h List.not_mem_nil
  | (_, t) :: ms, m, h => (List.mem_cons.mp h).elim
      (fun heq => heq ▸ inductOn leaf array object t)
      (inductOnMembers leaf array object ms m)

end

inductive Contains : JsonTree α → List (List UInt16 × JsonTree α) → Prop where
  | here (ms) : Contains (.object ms) ms
  | element {es e ms} (he : e ∈ es) (h : Contains e ms) : Contains (.array es) ms
  | member {ms' m ms} (hm : m ∈ ms') (h : Contains m.2 ms) : Contains (.object ms') ms

mutual

def bind (f : α → JsonTree β) : JsonTree α → JsonTree β
  | .leaf a => f a
  | .array es => .array (bindElements f es)
  | .object ms => .object (bindMembers f ms)

def bindElements (f : α → JsonTree β) : List (JsonTree α) → List (JsonTree β)
  | [] => []
  | e :: es => e.bind f :: bindElements f es

def bindMembers (f : α → JsonTree β) :
    List (List UInt16 × JsonTree α) → List (List UInt16 × JsonTree β)
  | [] => []
  | (k, t) :: ms => (k, t.bind f) :: bindMembers f ms

end

theorem bindElements_eq_map (f : α → JsonTree β) (es : List (JsonTree α)) :
    bindElements f es = es.map (bind f) := by
  induction es with
  | nil => rfl
  | cons e es ih => rw [bindElements, ih, List.map_cons]

theorem bindMembers_eq_map (f : α → JsonTree β) (ms : List (List UInt16 × JsonTree α)) :
    bindMembers f ms = ms.map fun m => (m.1, m.2.bind f) := by
  induction ms with
  | nil => rfl
  | cons m ms ih => rw [bindMembers, ih, List.map_cons]

end JsonTree

namespace JsonText

open JsonString

/-! ### The order of properties -/

/-- The array index that a key spells, in decimal without leading zeros and below 2^32 - 1. -/
def arrayIndex (key : List UInt16) : Option ℕ :=
  if key = [0x30] then some 0
  else if key.head? ≠ some 0x30 && !key.isEmpty && key.all fun u => 0x30 ≤ u && u ≤ 0x39 then
    let n := key.foldl (fun n u => n * 10 + (u.toNat - 0x30)) 0
    if n < 2 ^ 32 - 1 then some n else none
  else none

def propertyOrder {β : Type} (ms : List (List UInt16 × β)) : List (List UInt16 × β) :=
  (ms.filter fun m => (arrayIndex m.1).isSome).insertionSort
      (fun a b => (arrayIndex a.1).getD 0 ≤ (arrayIndex b.1).getD 0) ++
    ms.filter fun m => (arrayIndex m.1).isNone

/-- The properties that are created one after another; a later value replaces an earlier one. -/
def ownProperties {β : Type} (ms : List (List UInt16 × β)) : List (List UInt16 × β) :=
  propertyOrder (ms.foldl (fun m p => OrderedMap.set m p.1 p.2) [])

def Proper {β : Type} (ms : List (List UInt16 × β)) : Prop :=
  (ms.map Prod.fst).Nodup ∧ propertyOrder ms = ms

theorem ownProperties_of_proper {β : Type} {ms : List (List UInt16 × β)} (h : Proper ms) :
    ownProperties ms = ms := by
  have hfold : ∀ (done rest : List (List UInt16 × β)),
      ((done ++ rest).map Prod.fst).Nodup →
      rest.foldl (fun m p => OrderedMap.set m p.1 p.2) done = done ++ rest := by
    intro done rest hnodup
    induction rest generalizing done with
    | nil => exact (List.append_nil done).symm
    | cons p rest ih =>
      have hfresh : OrderedMap.get done p.1 = none := by
        apply OrderedMap.get_eq_none.mpr
        intro q hq heq
        rw [List.map_append, List.nodup_append] at hnodup
        exact hnodup.2.2 q.1 (List.mem_map_of_mem hq) p.1 (by simp) heq
      rw [List.foldl_cons, OrderedMap.set_of_get_none _ hfresh, ih]
      · rw [List.append_assoc, List.singleton_append]
      · rwa [List.append_assoc, List.singleton_append]
  unfold ownProperties
  rw [hfold [] ms h.1]
  exact h.2

theorem Proper.map {β γ : Type} {ms : List (List UInt16 × β)} (h : Proper ms)
    (f : List UInt16 × β → γ) : Proper (ms.map fun m => (m.1, f m)) := by
  have hfilter : ∀ p : List UInt16 → Bool,
      (ms.map fun m => (m.1, f m)).filter (fun m => p m.1) =
        (ms.filter fun m => p m.1).map fun m => (m.1, f m) := fun p => List.filter_map
  constructor
  · rw [List.map_map]
    exact h.1
  · have horder := congrArg (List.map fun m => (m.1, f m)) h.2
    unfold propertyOrder at horder ⊢
    rw [hfilter fun k => (arrayIndex k).isSome, hfilter fun k => (arrayIndex k).isNone,
      ← List.map_insertionSort (fun a b : List UInt16 × β =>
        (arrayIndex a.1).getD 0 ≤ (arrayIndex b.1).getD 0) _ (fun m => (m.1, f m)) _
        (fun a _ b _ => Iff.rfl), ← List.map_append]
    exact horder

/-! ### Writing -/

inductive Scalar (ν : Type) where
  | null
  | bool (b : Bool)
  | number (n : ν)
  | string (s : List UInt16)

def isNumberUnit (u : UInt16) : Bool :=
  (0x30 ≤ u && u ≤ 0x39) || u = 0x2D || u = 0x2B || u = 0x2E || u = 0x45 || u = 0x65

structure NumberFormat (ν : Type) where
  text : ν → List UInt16
  value : List UInt16 → Option ν
  text_ne : ∀ n, text n ≠ []
  text_units : ∀ n, ∀ u ∈ text n, isNumberUnit u = true
  value_text : ∀ n, value (text n) = some n

def isLead (u : UInt16) : Bool := 0xD800 ≤ u && u ≤ 0xDBFF

def isTrail (u : UInt16) : Bool := 0xDC00 ≤ u && u ≤ 0xDFFF

def escapeUnit (u : UInt16) : List UInt16 :=
  if u = 0x08 then [0x5C, 0x62]
  else if u = 0x09 then [0x5C, 0x74]
  else if u = 0x0A then [0x5C, 0x6E]
  else if u = 0x0C then [0x5C, 0x66]
  else if u = 0x0D then [0x5C, 0x72]
  else if u = 0x22 then [0x5C, 0x22]
  else if u = 0x5C then [0x5C, 0x5C]
  else if u < 0x20 || isLead u || isTrail u then 0x5C :: 0x75 :: hexUnits u.toNat
  else [u]

def escapeUnits : List UInt16 → List UInt16
  | [] => []
  | [u] => escapeUnit u
  | u :: v :: us =>
    if isLead u && isTrail v then u :: v :: escapeUnits us
    else escapeUnit u ++ escapeUnits (v :: us)

def quote (s : List UInt16) : List UInt16 := 0x22 :: (escapeUnits s ++ [0x22])

section Print

variable {ν : Type} (F : NumberFormat ν)

def printScalar : Scalar ν → List UInt16
  | .null => [0x6E, 0x75, 0x6C, 0x6C]
  | .bool true => [0x74, 0x72, 0x75, 0x65]
  | .bool false => [0x66, 0x61, 0x6C, 0x73, 0x65]
  | .number n => F.text n
  | .string s => quote s

mutual

def print : JsonTree (Scalar ν) → List UInt16
  | .leaf s => printScalar F s
  | .array [] => [0x5B, 0x5D]
  | .array (e :: es) => 0x5B :: (print e ++ printElements es)
  | .object [] => [0x7B, 0x7D]
  | .object ((k, t) :: ms) => 0x7B :: (quote k ++ 0x3A :: (print t ++ printMembers ms))

def printElements : List (JsonTree (Scalar ν)) → List UInt16
  | [] => [0x5D]
  | e :: es => 0x2C :: (print e ++ printElements es)

def printMembers : List (List UInt16 × JsonTree (Scalar ν)) → List UInt16
  | [] => [0x7D]
  | (k, t) :: ms => 0x2C :: (quote k ++ 0x3A :: (print t ++ printMembers ms))

end

/-! ### Reading -/

def isSpace (u : UInt16) : Bool := u = 0x20 || u = 0x09 || u = 0x0A || u = 0x0D

def expect (u : UInt16) (text : List UInt16) : Option (List UInt16) :=
  match text.dropWhile isSpace with
  | [] => none
  | v :: rest => if v = u then some rest else none

def strip (word text : List UInt16) : Option (List UInt16) :=
  if word <+: text then some (text.drop word.length) else none

def parseScalar (text : List UInt16) : Option (JsonTree (Scalar ν) × List UInt16) :=
  match strip [0x6E, 0x75, 0x6C, 0x6C] text with
  | some rest => some (.leaf .null, rest)
  | none =>
    match strip [0x74, 0x72, 0x75, 0x65] text with
    | some rest => some (.leaf (.bool true), rest)
    | none =>
      match strip [0x66, 0x61, 0x6C, 0x73, 0x65] text with
      | some rest => some (.leaf (.bool false), rest)
      | none => (F.value (text.takeWhile isNumberUnit)).map fun n =>
        (.leaf (.number n), text.dropWhile isNumberUnit)

def parseMember (value : List UInt16 → Option (JsonTree (Scalar ν) × List UInt16))
    (text : List UInt16) : Option ((List UInt16 × JsonTree (Scalar ν)) × List UInt16) :=
  (expect 0x22 text).bind fun rest => (readString rest).bind fun k =>
    (expect 0x3A k.2).bind fun rest => (value rest).map fun r => ((k.1, r.1), r.2)

mutual

def parseValue : ℕ → List UInt16 → Option (JsonTree (Scalar ν) × List UInt16)
  | 0, _ => none
  | n + 1, text =>
    match expect 0x22 text with
    | some rest => (readString rest).map fun r => (.leaf (.string r.1), r.2)
    | none =>
      match expect 0x5B text with
      | some rest =>
        match expect 0x5D rest with
        | some rest => some (.array [], rest)
        | none => (parseValue n rest).bind fun r =>
          (parseElements n r.2).map fun r' => (.array (r.1 :: r'.1), r'.2)
      | none =>
        match expect 0x7B text with
        | some rest =>
          match expect 0x7D rest with
          | some rest => some (.object [], rest)
          | none => (parseMember (parseValue n) rest).bind fun r =>
            (parseMembers n r.2).map fun r' => (.object (ownProperties (r.1 :: r'.1)), r'.2)
        | none => parseScalar F (text.dropWhile isSpace)

def parseElements : ℕ → List UInt16 → Option (List (JsonTree (Scalar ν)) × List UInt16)
  | 0, _ => none
  | n + 1, text =>
    match expect 0x2C text with
    | some rest => (parseValue n rest).bind fun r =>
      (parseElements n r.2).map fun r' => (r.1 :: r'.1, r'.2)
    | none => (expect 0x5D text).map fun rest => ([], rest)

def parseMembers :
    ℕ → List UInt16 → Option (List (List UInt16 × JsonTree (Scalar ν)) × List UInt16)
  | 0, _ => none
  | n + 1, text =>
    match expect 0x2C text with
    | some rest => (parseMember (parseValue n) rest).bind fun r =>
      (parseMembers n r.2).map fun r' => (r.1 :: r'.1, r'.2)
    | none => (expect 0x7D text).map fun rest => ([], rest)

end

/-- A text that is one value. The number of calls is bounded by the length of the text. -/
def parse (text : List UInt16) : Option (JsonTree (Scalar ν)) :=
  (parseValue F (text.length + 1) text).bind fun r =>
    if r.2.dropWhile isSpace = [] then some r.1 else none

end Print

/-! ### What is written is read -/

theorem reads_escapeUnit (u : UInt16) : Reads (escapeUnit u) u := by
  unfold escapeUnit
  by_cases h08 : u = 0x08
  · rw [if_pos h08, h08]
    exact reads_short (by decide)
  rw [if_neg h08]
  by_cases h09 : u = 0x09
  · rw [if_pos h09, h09]
    exact reads_short (by decide)
  rw [if_neg h09]
  by_cases h0A : u = 0x0A
  · rw [if_pos h0A, h0A]
    exact reads_short (by decide)
  rw [if_neg h0A]
  by_cases h0C : u = 0x0C
  · rw [if_pos h0C, h0C]
    exact reads_short (by decide)
  rw [if_neg h0C]
  by_cases h0D : u = 0x0D
  · rw [if_pos h0D, h0D]
    exact reads_short (by decide)
  rw [if_neg h0D]
  by_cases hquote : u = 0x22
  · rw [if_pos hquote, hquote]
    exact reads_short (by decide)
  rw [if_neg hquote]
  by_cases hback : u = 0x5C
  · rw [if_pos hback, hback]
    exact reads_short (by decide)
  rw [if_neg hback]
  by_cases hcode : (u < 0x20 || isLead u || isTrail u) = true
  · rw [if_pos hcode]
    exact reads_unicode u
  · rw [if_neg hcode]
    simp only [Bool.or_eq_true, decide_eq_true_eq, not_or] at hcode
    exact reads_plain hquote hback hcode.1.1

variable {u : UInt16}

theorem reads_surrogate (h : 0xD800 ≤ u) : Reads [u] u := by
  apply reads_plain
  · rintro rfl
    exact absurd h (by decide)
  · rintro rfl
    exact absurd h (by decide)
  · intro hlt
    have h₁ : (0xD800 : UInt16).toNat ≤ u.toNat := h
    have h₂ : u.toNat < (0x20 : UInt16).toNat := hlt
    have h₃ : (0xD800 : UInt16).toNat = 55296 := rfl
    have h₄ : (0x20 : UInt16).toNat = 32 := rfl
    omega

theorem isLead_le (h : isLead u = true) : 0xD800 ≤ u := by
  unfold isLead at h
  exact of_decide_eq_true (Bool.and_eq_true_iff.mp h).1

theorem isTrail_le (h : isTrail u = true) : 0xD800 ≤ u := by
  unfold isTrail at h
  have h₁ : (0xDC00 : UInt16).toNat ≤ u.toNat := of_decide_eq_true (Bool.and_eq_true_iff.mp h).1
  have h₂ : (0xDC00 : UInt16).toNat = 56320 := rfl
  show (0xD800 : UInt16).toNat ≤ u.toNat
  have h₃ : (0xD800 : UInt16).toNat = 55296 := rfl
  omega

theorem readString_escapeUnits (s rest : List UInt16) :
    readString (escapeUnits s ++ 0x22 :: rest) = some (s, rest) := by
  induction s using escapeUnits.induct with
  | case1 =>
    show readString (0x22 :: rest) = _
    rw [readString.eq_def]
    exact if_pos rfl
  | case2 u =>
    rw [escapeUnits, reads_escapeUnit u]
    have hend : readString (0x22 :: rest) = some ([], rest) := by
      rw [readString.eq_def]
      exact if_pos rfl
    rw [hend]
    rfl
  | case3 u v us hpair ih =>
    rw [escapeUnits, if_pos hpair]
    obtain ⟨hu, hv⟩ := Bool.and_eq_true_iff.mp hpair
    show readString ([u] ++ ([v] ++ (escapeUnits us ++ 0x22 :: rest))) = _
    rw [reads_surrogate (isLead_le hu), reads_surrogate (isTrail_le hv), ih]
    rfl
  | case4 u v us hpair ih =>
    rw [escapeUnits, if_neg hpair, List.append_assoc, reads_escapeUnit u, ih]
    rfl

theorem expect_self (h : isSpace u = false) (rest : List UInt16) :
    expect u (u :: rest) = some rest := by
  unfold expect
  rw [List.dropWhile_cons_of_neg (by simp [h])]
  exact if_pos rfl

theorem expect_ne {u v : UInt16} (h : isSpace v = false) (hne : v ≠ u) (rest : List UInt16) :
    expect u (v :: rest) = none := by
  unfold expect
  rw [List.dropWhile_cons_of_neg (by simp [h])]
  exact if_neg hne

theorem strip_append (word rest : List UInt16) : strip word (word ++ rest) = some rest := by
  unfold strip
  rw [if_pos (List.prefix_append word rest), List.drop_left]

theorem strip_ne {u v : UInt16} (hne : u ≠ v) (word rest : List UInt16) :
    strip (u :: word) (v :: rest) = none := by
  unfold strip
  rw [if_neg]
  intro hpre
  exact hne (List.cons_prefix_cons.mp hpre).1

def Stops (text : List UInt16) : Prop := ∀ u ∈ text.head?, isNumberUnit u = false

section RoundTrip

variable {ν : Type} (F : NumberFormat ν)

theorem isNumberUnit_other {u : UInt16} (h : isNumberUnit u = true) :
    isSpace u = false ∧ u ≠ 0x22 ∧ u ≠ 0x5B ∧ u ≠ 0x7B ∧ u ≠ 0x5D ∧ u ≠ 0x6E ∧ u ≠ 0x74 ∧
      u ≠ 0x66 := by
  refine ⟨?_, ?_, ?_, ?_, ?_, ?_, ?_, ?_⟩
  · rw [← Bool.not_eq_true]
    intro hspace
    simp only [isSpace, Bool.or_eq_true, decide_eq_true_eq] at hspace
    rcases hspace with ((rfl | rfl) | rfl) | rfl
    iterate 4 exact absurd h (by decide)
  all_goals
    rintro rfl
    exact absurd h (by decide)

theorem parseScalar_number (n : ν) {rest : List UInt16} (hrest : Stops rest) :
    parseScalar F (F.text n ++ rest) = some (.leaf (.number n), rest) := by
  obtain ⟨u, us, htext⟩ := List.exists_cons_of_ne_nil (F.text_ne n)
  have hu := isNumberUnit_other (F.text_units n u (by rw [htext]; exact List.mem_cons_self))
  have hstrip : ∀ v word, v ≠ u → strip (v :: word) (F.text n ++ rest) = none := by
    intro v word hne
    rw [htext]
    exact strip_ne hne word _
  have htake : (F.text n ++ rest).takeWhile isNumberUnit = F.text n := by
    rw [List.takeWhile_append_of_pos (F.text_units n)]
    cases rest with
    | nil => exact List.append_nil _
    | cons v rest =>
      rw [List.takeWhile_cons_of_neg (by simp [hrest v (by simp)]), List.append_nil]
  have hdrop : (F.text n ++ rest).dropWhile isNumberUnit = rest := by
    rw [List.dropWhile_append_of_pos (F.text_units n)]
    cases rest with
    | nil => rfl
    | cons v rest => rw [List.dropWhile_cons_of_neg (by simp [hrest v (by simp)])]
  unfold parseScalar
  rw [hstrip _ _ hu.2.2.2.2.2.1.symm, hstrip _ _ hu.2.2.2.2.2.2.1.symm,
    hstrip _ _ hu.2.2.2.2.2.2.2.symm]
  dsimp only
  rw [htake, hdrop, F.value_text]
  rfl

theorem print_head (t : JsonTree (Scalar ν)) :
    ∃ u us, print F t = u :: us ∧ isSpace u = false ∧ u ≠ 0x5D := by
  cases t with
  | leaf s =>
    cases s with
    | null | string s => exact ⟨_, _, rfl, by decide, by decide⟩
    | bool b => cases b <;> exact ⟨_, _, rfl, by decide, by decide⟩
    | number n =>
      obtain ⟨u, us, htext⟩ := List.exists_cons_of_ne_nil (F.text_ne n)
      have hu := isNumberUnit_other (F.text_units n u (by rw [htext]; exact List.mem_cons_self))
      exact ⟨u, us, htext, hu.1, hu.2.2.2.2.1⟩
  | array es => cases es <;> exact ⟨_, _, rfl, by decide, by decide⟩
  | object ms => rcases ms with _ | ⟨⟨k, t⟩, ms⟩ <;> exact ⟨_, _, rfl, by decide, by decide⟩

theorem length_print_pos (t : JsonTree (Scalar ν)) : 0 < (print F t).length := by
  obtain ⟨u, us, h, -⟩ := print_head F t
  rw [h]
  exact Nat.succ_pos _

def ReadsBack (t : JsonTree (Scalar ν)) : Prop :=
  ∀ n rest, Stops rest → (print F t).length ≤ n →
    parseValue F n (print F t ++ rest) = some (t, rest)

theorem stops_printElements (es : List (JsonTree (Scalar ν))) (rest : List UInt16) :
    Stops (printElements F es ++ rest) := by
  intro u hu
  cases es with
  | nil =>
    obtain rfl : 0x5D = u := by simpa [printElements] using hu
    decide
  | cons e es =>
    obtain rfl : 0x2C = u := by simpa [printElements] using hu
    decide

theorem stops_printMembers (ms : List (List UInt16 × JsonTree (Scalar ν))) (rest : List UInt16) :
    Stops (printMembers F ms ++ rest) := by
  intro u hu
  rcases ms with _ | ⟨⟨k, t⟩, ms⟩
  · obtain rfl : 0x7D = u := by simpa [printMembers] using hu
    decide
  · obtain rfl : 0x2C = u := by simpa [printMembers] using hu
    decide

variable {es : List (JsonTree (Scalar ν))}

theorem parseElements_print (h : ∀ e ∈ es, ReadsBack F e) (n : ℕ) (rest : List UInt16)
    (hn : (printElements F es).length ≤ n) :
    parseElements F n (printElements F es ++ rest) = some (es, rest) := by
  induction es generalizing n with
  | nil =>
    obtain ⟨n, rfl⟩ : ∃ k, n = k + 1 := Nat.exists_eq_succ_of_ne_zero (Nat.ne_of_gt hn)
    have htext : printElements F [] ++ rest = 0x5D :: rest := rfl
    rw [htext, parseElements, expect_ne (by decide) (by decide)]
    dsimp only
    rw [expect_self (by decide)]
    rfl
  | cons e es ih =>
    obtain ⟨n, rfl⟩ : ∃ k, n = k + 1 := Nat.exists_eq_succ_of_ne_zero (by
      rintro rfl
      exact absurd hn (by simp [printElements]))
    have hlength : (print F e).length + (printElements F es).length ≤ n := by
      rw [printElements, List.length_cons, List.length_append] at hn
      omega
    have htext : printElements F (e :: es) ++ rest =
        0x2C :: (print F e ++ (printElements F es ++ rest)) := by
      simp [printElements]
    rw [htext, parseElements, expect_self (by decide)]
    dsimp only
    rw [h e List.mem_cons_self n _ (stops_printElements F es rest) (by omega), Option.bind_some,
      ih (fun e' he' => h e' (List.mem_cons_of_mem e he')) n (by omega)]
    rfl

theorem parseMember_print {k : List UInt16} {t : JsonTree (Scalar ν)} (h : ReadsBack F t) (n : ℕ)
    {rest : List UInt16} (hrest : Stops rest) (hn : (print F t).length ≤ n) :
    parseMember (parseValue F n) (quote k ++ 0x3A :: (print F t ++ rest)) =
      some ((k, t), rest) := by
  have hquote : quote k ++ 0x3A :: (print F t ++ rest) =
      0x22 :: (escapeUnits k ++ 0x22 :: 0x3A :: (print F t ++ rest)) := by
    simp [quote]
  unfold parseMember
  rw [hquote, expect_self (by decide), Option.bind_some, readString_escapeUnits, Option.bind_some,
    expect_self (by decide), Option.bind_some, h n rest hrest hn]
  rfl

variable {ms : List (List UInt16 × JsonTree (Scalar ν))}

theorem parseMembers_print (h : ∀ m ∈ ms, ReadsBack F m.2) (n : ℕ) (rest : List UInt16)
    (hn : (printMembers F ms).length ≤ n) :
    parseMembers F n (printMembers F ms ++ rest) = some (ms, rest) := by
  induction ms generalizing n with
  | nil =>
    obtain ⟨n, rfl⟩ : ∃ k, n = k + 1 := Nat.exists_eq_succ_of_ne_zero (Nat.ne_of_gt hn)
    have htext : printMembers F [] ++ rest = 0x7D :: rest := rfl
    rw [htext, parseMembers, expect_ne (by decide) (by decide)]
    dsimp only
    rw [expect_self (by decide)]
    rfl
  | cons m ms ih =>
    obtain ⟨k, t⟩ := m
    obtain ⟨n, rfl⟩ : ∃ k, n = k + 1 := Nat.exists_eq_succ_of_ne_zero (by
      rintro rfl
      exact absurd hn (by simp [printMembers]))
    have hlength : (print F t).length + (printMembers F ms).length ≤ n := by
      rw [printMembers, List.length_cons, List.length_append, List.length_cons,
        List.length_append] at hn
      omega
    have htext : printMembers F ((k, t) :: ms) ++ rest =
        0x2C :: (quote k ++ 0x3A :: (print F t ++ (printMembers F ms ++ rest))) := by
      simp [printMembers]
    rw [htext, parseMembers, expect_self (by decide)]
    dsimp only
    rw [parseMember_print F (h (k, t) List.mem_cons_self) n (stops_printMembers F ms rest)
      (show (print F t).length ≤ n by omega), Option.bind_some,
      ih (fun m hm => h m (List.mem_cons_of_mem _ hm)) n (by omega)]
    rfl

theorem readsBack_scalar (s : Scalar ν) : ReadsBack F (.leaf s) := by
  intro n rest hrest hn
  obtain ⟨n, rfl⟩ : ∃ k, n = k + 1 :=
    Nat.exists_eq_succ_of_ne_zero (Nat.ne_of_gt ((length_print_pos F _).trans_le hn))
  have hother : ∀ u text, isSpace u = false → u ≠ 0x22 → u ≠ 0x5B → u ≠ 0x7B →
      parseValue F (n + 1) (u :: text) = parseScalar F (u :: text) := by
    intro u text hspace h₁ h₂ h₃
    rw [parseValue, expect_ne hspace h₁, expect_ne hspace h₂, expect_ne hspace h₃,
      List.dropWhile_cons_of_neg (by simp [hspace])]
  cases s with
  | null =>
    refine (hother 0x6E _ (by decide) (by decide) (by decide) (by decide)).trans ?_
    have hstrip := strip_append [0x6E, 0x75, 0x6C, 0x6C] rest
    unfold parseScalar
    rw [show strip [0x6E, 0x75, 0x6C, 0x6C] (0x6E :: _) = some rest from hstrip]
  | bool b =>
    cases b with
    | true =>
      refine (hother 0x74 _ (by decide) (by decide) (by decide) (by decide)).trans ?_
      have hstrip := strip_append [0x74, 0x72, 0x75, 0x65] rest
      unfold parseScalar
      rw [strip_ne (by decide),
        show strip [0x74, 0x72, 0x75, 0x65] (0x74 :: _) = some rest from hstrip]
    | false =>
      refine (hother 0x66 _ (by decide) (by decide) (by decide) (by decide)).trans ?_
      have hstrip := strip_append [0x66, 0x61, 0x6C, 0x73, 0x65] rest
      unfold parseScalar
      rw [strip_ne (by decide), strip_ne (by decide),
        show strip [0x66, 0x61, 0x6C, 0x73, 0x65] (0x66 :: _) = some rest from hstrip]
  | number k =>
    have hnumber := parseScalar_number F k hrest
    obtain ⟨u, us, htext⟩ := List.exists_cons_of_ne_nil (F.text_ne k)
    have hu := isNumberUnit_other (F.text_units k u (by rw [htext]; exact List.mem_cons_self))
    show parseValue F (n + 1) (F.text k ++ rest) = _
    rw [htext, List.cons_append] at hnumber ⊢
    rw [hother u _ hu.1 hu.2.1 hu.2.2.1 hu.2.2.2.1]
    exact hnumber
  | string s =>
    have htext : print F (.leaf (.string s)) ++ rest = 0x22 :: (escapeUnits s ++ 0x22 :: rest) := by
      simp [print, printScalar, quote]
    rw [htext, parseValue, expect_self (by decide)]
    dsimp only
    rw [readString_escapeUnits]
    rfl

theorem readsBack_array (h : ∀ e ∈ es, ReadsBack F e) : ReadsBack F (.array es) := by
  intro n rest hrest hn
  obtain ⟨n, rfl⟩ : ∃ k, n = k + 1 :=
    Nat.exists_eq_succ_of_ne_zero (Nat.ne_of_gt ((length_print_pos F _).trans_le hn))
  cases es with
  | nil =>
    have htext : print F (.array []) ++ rest = 0x5B :: 0x5D :: rest := rfl
    rw [htext, parseValue, expect_ne (by decide) (by decide), expect_self (by decide)]
    dsimp only
    rw [expect_self (by decide)]
  | cons e es =>
    have hlength : (print F e).length + (printElements F es).length ≤ n := by
      rw [print, List.length_cons, List.length_append] at hn
      omega
    have htext : print F (.array (e :: es)) ++ rest =
        0x5B :: (print F e ++ (printElements F es ++ rest)) := by
      simp [print]
    obtain ⟨u, us, hhead, hspace, hclose⟩ := print_head F e
    have hfirst : expect 0x5D (print F e ++ (printElements F es ++ rest)) = none := by
      rw [hhead]
      exact expect_ne hspace hclose _
    rw [htext, parseValue, expect_ne (by decide) (by decide), expect_self (by decide)]
    dsimp only
    rw [hfirst]
    dsimp only
    rw [h e List.mem_cons_self n _ (stops_printElements F es rest) (by omega), Option.bind_some,
      parseElements_print F (fun e' he' => h e' (List.mem_cons_of_mem e he')) n rest (by omega)]
    rfl

theorem readsBack_object (hproper : Proper ms)
    (h : ∀ m ∈ ms, ReadsBack F m.2) : ReadsBack F (.object ms) := by
  intro n rest hrest hn
  obtain ⟨n, rfl⟩ : ∃ k, n = k + 1 :=
    Nat.exists_eq_succ_of_ne_zero (Nat.ne_of_gt ((length_print_pos F _).trans_le hn))
  rcases ms with _ | ⟨⟨k, t⟩, ms⟩
  · have htext : print F (.object []) ++ rest = 0x7B :: 0x7D :: rest := rfl
    rw [htext, parseValue, expect_ne (by decide) (by decide), expect_ne (by decide) (by decide),
      expect_self (by decide)]
    dsimp only
    rw [expect_self (by decide)]
  · have hlength : (print F t).length + (printMembers F ms).length ≤ n := by
      rw [print, List.length_cons, List.length_append, List.length_cons, List.length_append] at hn
      omega
    have htext : print F (.object ((k, t) :: ms)) ++ rest =
        0x7B :: (quote k ++ 0x3A :: (print F t ++ (printMembers F ms ++ rest))) := by
      simp [print]
    have hfirst : expect 0x7D (quote k ++ 0x3A :: (print F t ++ (printMembers F ms ++ rest))) =
        none := expect_ne (by decide) (by decide) _
    rw [htext, parseValue, expect_ne (by decide) (by decide), expect_ne (by decide) (by decide),
      expect_self (by decide)]
    dsimp only
    rw [hfirst]
    dsimp only
    rw [parseMember_print F (h (k, t) List.mem_cons_self) n (stops_printMembers F ms rest)
      (show (print F t).length ≤ n by omega), Option.bind_some,
      parseMembers_print F (fun m hm => h m (List.mem_cons_of_mem _ hm)) n rest (by omega),
      Option.map_some]
    dsimp only
    rw [ownProperties_of_proper hproper]

def WellFormed {α : Type} (t : JsonTree α) : Prop := ∀ ms, t.Contains ms → Proper ms

theorem readsBack_of_wellFormed (t : JsonTree (Scalar ν)) (h : WellFormed t) : ReadsBack F t := by
  induction t using JsonTree.inductOn with
  | leaf s => exact readsBack_scalar F s
  | array es ih =>
    exact readsBack_array F fun e he => ih e he fun ms hms => h ms (.element he hms)
  | object ms ih =>
    exact readsBack_object F (h ms (.here ms)) fun m hm =>
      ih m hm fun ms' hms' => h ms' (.member hm hms')

theorem parse_print (t : JsonTree (Scalar ν)) (h : WellFormed t) :
    parse F (print F t) = some t := by
  have hread := readsBack_of_wellFormed F t h ((print F t).length + 1) []
    (fun u hu => by simp at hu) (Nat.le_succ _)
  rw [List.append_nil] at hread
  unfold parse
  rw [hread]
  rfl

end RoundTrip

/-! ### Texts without unpaired surrogates -/

inductive Paired : List UInt16 → Prop where
  | nil : Paired []
  | unit {u us} (hlead : isLead u = false) (htrail : isTrail u = false) (h : Paired us) :
      Paired (u :: us)
  | pair {u v us} (hlead : isLead u = true) (htrail : isTrail v = true) (h : Paired us) :
      Paired (u :: v :: us)

variable {us : List UInt16}

theorem Paired.append {vs : List UInt16} (hus : Paired us) (hvs : Paired vs) :
    Paired (us ++ vs) := by
  induction hus with
  | nil => exact hvs
  | unit hlead htrail _ ih => exact .unit hlead htrail ih
  | pair hlead htrail _ ih => exact .pair hlead htrail ih

theorem paired_of_plain (h : ∀ u ∈ us, isLead u = false ∧ isTrail u = false) : Paired us := by
  induction us with
  | nil => exact .nil
  | cons u us ih =>
    have hu := h u List.mem_cons_self
    exact .unit hu.1 hu.2 (ih fun v hv => h v (List.mem_cons_of_mem u hv))

theorem paired_of_all (h : us.all (fun u => !isLead u && !isTrail u) = true) : Paired us := by
  apply paired_of_plain
  intro u hu
  have hplain := List.all_eq_true.mp h u hu
  rw [Bool.and_eq_true, Bool.not_eq_true', Bool.not_eq_true'] at hplain
  exact hplain

theorem plain_of_lt (h : u < 0xD800) : isLead u = false ∧ isTrail u = false := by
  constructor
  · rw [← Bool.not_eq_true]
    exact fun hlead => absurd (isLead_le hlead) (by rwa [UInt16.not_le])
  · rw [← Bool.not_eq_true]
    exact fun htrail => absurd (isTrail_le htrail) (by rwa [UInt16.not_le])

theorem hexUnit_lt {n : ℕ} (h : n < 16) : hexUnit n < 0xD800 := by
  interval_cases n <;> decide

theorem paired_escapeUnit (u : UInt16) : Paired (escapeUnit u) := by
  have hshort : ∀ e : UInt16, e < 0xD800 → Paired [0x5C, e] := by
    intro e he
    have hplain := plain_of_lt he
    exact .unit (by decide) (by decide) (.unit hplain.1 hplain.2 .nil)
  unfold escapeUnit
  by_cases h08 : u = 0x08
  · rw [if_pos h08]
    exact hshort _ (by decide)
  rw [if_neg h08]
  by_cases h09 : u = 0x09
  · rw [if_pos h09]
    exact hshort _ (by decide)
  rw [if_neg h09]
  by_cases h0A : u = 0x0A
  · rw [if_pos h0A]
    exact hshort _ (by decide)
  rw [if_neg h0A]
  by_cases h0C : u = 0x0C
  · rw [if_pos h0C]
    exact hshort _ (by decide)
  rw [if_neg h0C]
  by_cases h0D : u = 0x0D
  · rw [if_pos h0D]
    exact hshort _ (by decide)
  rw [if_neg h0D]
  by_cases hquote : u = 0x22
  · rw [if_pos hquote]
    exact hshort _ (by decide)
  rw [if_neg hquote]
  by_cases hback : u = 0x5C
  · rw [if_pos hback]
    exact hshort _ (by decide)
  rw [if_neg hback]
  by_cases hcode : (u < 0x20 || isLead u || isTrail u) = true
  · rw [if_pos hcode]
    apply paired_of_plain
    intro v hv
    have hmod : ∀ n : ℕ, n % 16 < 16 := fun n => Nat.mod_lt n (by decide)
    simp only [hexUnits, List.mem_cons, List.not_mem_nil, or_false] at hv
    rcases hv with rfl | rfl | rfl | rfl | rfl | rfl
    · exact plain_of_lt (by decide)
    · exact plain_of_lt (by decide)
    all_goals exact plain_of_lt (hexUnit_lt (hmod _))
  · rw [if_neg hcode]
    simp only [Bool.or_eq_true, not_or, Bool.not_eq_true] at hcode
    exact .unit hcode.1.2 hcode.2 .nil

theorem paired_escapeUnits (s : List UInt16) : Paired (escapeUnits s) := by
  induction s using escapeUnits.induct with
  | case1 => exact .nil
  | case2 u => exact paired_escapeUnit u
  | case3 u v us hpair ih =>
    rw [escapeUnits, if_pos hpair]
    obtain ⟨hu, hv⟩ := Bool.and_eq_true_iff.mp hpair
    exact .pair hu hv ih
  | case4 u v us hpair ih =>
    rw [escapeUnits, if_neg hpair]
    exact (paired_escapeUnit u).append ih

theorem Paired.mark (hu : u < 0xD800) (h : Paired us) :
    Paired (u :: us) := .unit (plain_of_lt hu).1 (plain_of_lt hu).2 h

theorem paired_quote (s : List UInt16) : Paired (quote s) :=
  .mark (by decide) ((paired_escapeUnits s).append (.mark (by decide) .nil))

section PairedPrint

variable {ν : Type} (F : NumberFormat ν)

theorem paired_printElements {es : List (JsonTree (Scalar ν))}
    (h : ∀ e ∈ es, Paired (print F e)) : Paired (printElements F es) := by
  induction es with
  | nil => exact .mark (by decide) .nil
  | cons e es ih =>
    rw [printElements]
    exact .mark (by decide) ((h e List.mem_cons_self).append
      (ih fun e' he' => h e' (List.mem_cons_of_mem e he')))

theorem paired_printMembers {ms : List (List UInt16 × JsonTree (Scalar ν))}
    (h : ∀ m ∈ ms, Paired (print F m.2)) : Paired (printMembers F ms) := by
  induction ms with
  | nil => exact .mark (by decide) .nil
  | cons m ms ih =>
    rw [printMembers]
    exact .mark (by decide) ((paired_quote m.1).append (.mark (by decide)
      ((h m List.mem_cons_self).append (ih fun m' hm' => h m' (List.mem_cons_of_mem m hm')))))

theorem isNumberUnit_lt {u : UInt16} (h : isNumberUnit u = true) : u < 0xD800 := by
  by_contra hle
  have hu : 55296 ≤ u.toNat := UInt16.not_lt.mp hle
  have hne : ∀ v : UInt16, v.toNat < 55296 → u ≠ v := by
    rintro v hv rfl
    omega
  have hdigit : ¬ u ≤ 0x39 := fun hle => by
    have hn : u.toNat ≤ 57 := hle
    omega
  simp [isNumberUnit, hdigit, hne 0x2D (by decide), hne 0x2B (by decide), hne 0x2E (by decide),
    hne 0x45 (by decide), hne 0x65 (by decide)] at h

theorem paired_print (t : JsonTree (Scalar ν)) : Paired (print F t) := by
  induction t using JsonTree.inductOn with
  | leaf s =>
    cases s with
    | null => exact (paired_of_all (by decide) : Paired [0x6E, 0x75, 0x6C, 0x6C])
    | bool b =>
      cases b with
      | true => exact (paired_of_all (by decide) : Paired [0x74, 0x72, 0x75, 0x65])
      | false => exact (paired_of_all (by decide) : Paired [0x66, 0x61, 0x6C, 0x73, 0x65])
    | number n =>
      exact paired_of_plain fun u hu => plain_of_lt (isNumberUnit_lt (F.text_units n u hu))
    | string s => exact paired_quote s
  | array es ih =>
    cases es with
    | nil => exact (paired_of_all (by decide) : Paired [0x5B, 0x5D])
    | cons e es =>
      rw [print]
      exact .mark (by decide) ((ih e List.mem_cons_self).append
        (paired_printElements F fun e' he' => ih e' (List.mem_cons_of_mem e he')))
  | object ms ih =>
    rcases ms with _ | ⟨⟨k, t⟩, ms⟩
    · exact (paired_of_all (by decide) : Paired [0x7B, 0x7D])
    · rw [print]
      exact .mark (by decide) ((paired_quote k).append (.mark (by decide)
        ((ih (k, t) List.mem_cons_self).append
          (paired_printMembers F fun m hm => ih m (List.mem_cons_of_mem _ hm)))))

end PairedPrint

end JsonText
