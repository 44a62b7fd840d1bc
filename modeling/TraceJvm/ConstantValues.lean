import TraceJvm.CodeParser
import TraceJvm.FieldMemory

/-! `ConstantValue` attributes: what the parser takes, and `initialize_constant_value_fields`. -/
namespace TraceJvm

open ByteMemory MemByte List Option

/-- `cp_field`, with the data of its `ConstantValue` attributes before they are parsed. -/
structure FieldInfo extends DeclaredField where
  isFinal : Bool
  /-- `class_name` of the descriptor -/
  className : String
  constantValues : List (List UInt8)

/-- `cp_field`, with the entries of its `ConstantValue` attributes. -/
structure ConstantField extends DeclaredField where
  isFinal : Bool
  className : String
  constantValues : List CpEntry

def constantValueKinds : List CpKind := [.string, .integer, .float, .long, .double]

/-- The case `ConstantValue` of `parse_attribute`. What follows the index is ignored. -/
def parseConstantValue (cp : List CpEntry) : CodeParser CpEntry := do
  let index ← nextU16 "constant value index"
  checkedCpEntry cp index constantValueKinds "constant value"

def parseConstantValues (cp : List CpEntry) : List (List UInt8) → Except FormatError (List CpEntry)
  | [] => .ok []
  | data :: rest =>
      match parseConstantValue cp data with
      | .error e => .error e
      | .ok (ent, _) => (parseConstantValues cp rest).map (ent :: ·)

def parseField (cp : List CpEntry) (f : FieldInfo) : Except FormatError ConstantField :=
  (parseConstantValues cp f.constantValues).map fun ents =>
    { f with constantValues := ents }

def parseFields (cp : List CpEntry) : List FieldInfo → Except FormatError (List ConstantField)
  | [] => .ok []
  | f :: fs =>
      match parseField cp f with
      | .error e => .error e
      | .ok g => (parseFields cp fs).map (g :: ·)

/-- The fields as `link_class` places them. -/
def declaredFields (padding : Option ℕ) (fields : List ConstantField) : ClassFields :=
  ⟨fields.map ConstantField.toDeclaredField, padding⟩

/-- The value that is stored for an entry, given the string that is made for it: `none` for an entry
of another kind, `some none` where there is no string. -/
def constantOf (str : Option ℕ) : CpEntry → Option (Option FieldValue)
  | .integer v => some (some (.int (BitVec.ofInt 32 v)))
  | .float bits => some (some (.float bits.toBitVec))
  | .long v => some (some (.long (BitVec.ofInt 64 v)))
  | .double bits => some (some (.double bits.toBitVec))
  | .other .string _ => some (str.map fun o => .reference (some o))
  | .other _ _ => none

abbrev CellStore := ℕ × List (MemByte ℕ)

/-- The loop of `initialize_constant_value_fields` over some of the fields: the result, and what is
stored into the static area, or `none` where the code is not reached. `strings` are the
results of `MakeJStringFromModifiedUTF8`. -/
def initializeLoop (w : PointerWidth) (l : FieldLayout) (strings : ℕ → Option ℕ)
    (fields : List ConstantField) : List ℕ → Option (Bool × List CellStore)
  | [] => some (false, [])
  | i :: is =>
    match fields[i]? with
    | none => none
    | some f =>
      if f.isStatic && f.isFinal then
        match f.constantValues.head? with
        | none => initializeLoop w l strings fields is
        | some ent =>
          match constantOf (strings i) ent with
          | none => none
          | some none => some (true, [])
          | some (some v) =>
            (storedCells w v.kind v).bind fun cells =>
              (initializeLoop w l strings fields is).map fun r =>
                (r.1, (l.byteOffset i, cells) :: r.2)
      else initializeLoop w l strings fields is

def initializeConstantValueFields (w : PointerWidth) (l : FieldLayout) (strings : ℕ → Option ℕ)
    (fields : List ConstantField) : Option (Bool × List CellStore) :=
  initializeLoop w l strings fields (List.range fields.length)

/-! ### What the class is to have -/

namespace ConstantField

def Takes (f : ConstantField) (ent : CpEntry) : Prop :=
  match f.parsedDescriptor.declaredKind with
  | .boolean | .byte | .char | .short | .int => ent.kind = .integer
  | .long => ent.kind = .long
  | .float => ent.kind = .float
  | .double => ent.kind = .double
  | .reference => ent.kind = .string ∧ f.parsedDescriptor.dimensions = 0 ∧
      f.className = "java/lang/String"
  | .void => False

def constant (f : ConstantField) : Option CpEntry :=
  if f.isStatic && f.isFinal then f.constantValues.head? else none

def firstValue (f : ConstantField) (str : Option ℕ) : FieldValue :=
  match f.constant with
  | none => .zero f.reprKind
  | some ent => ((constantOf str ent).join).getD (.zero f.reprKind)

end ConstantField

/-- The static fields hold their constants, or zero, also where a constant is read at the declared
type that it belongs to; nothing is stored outside the static area, and no attribute has a constant
of another kind than its field. -/
structure ConstantsRight (w : PointerWidth) (l : FieldLayout) (strings : ℕ → Option ℕ)
    (fields : List ConstantField) : Prop where
  kinds : ∀ f ∈ fields, ∀ ent ∈ f.constantValues, f.Takes ent
  initialized : ∃ stores, initializeConstantValueFields w l strings fields = some (false, stores) ∧
    (∀ s ∈ stores, s.1 + s.2.length ≤ l.staticBytes) ∧
    ∀ i f, fields[i]? = some f → f.isStatic = true →
      let mem := writeAll (fun _ => byte 0) stores
      let kind := f.parsedDescriptor.declaredKind
      let v := f.firstValue (strings i)
      loadStackValue w mem (l.byteOffset i) f.reprKind = some v ∧
        (FieldValue.narrow kind v = v → loadStackValue w mem (l.byteOffset i) kind = some v)

def StringsMade (strings : ℕ → Option ℕ) (fields : List ConstantField) : Prop :=
  ∀ i f ent, fields[i]? = some f → f.constant = some ent → ent.kind = .string →
    strings i ≠ none

/-- Each constant is one for the type of its field, and memory suffices for the strings. -/
structure ConstantsMeet (strings : ℕ → Option ℕ) (fields : List ConstantField) : Prop where
  kinds : ∀ f ∈ fields, ∀ ent ∈ f.constantValues, f.Takes ent
  strings : StringsMade strings fields

section

variable {w : PointerWidth} {l : FieldLayout} {strings : ℕ → Option ℕ} {fields : List ConstantField}
  {f : ConstantField} {ent : CpEntry} {i : ℕ}

/-- A constant for the type of the field has the kind of the field's slot. -/
theorem ConstantField.Takes.constantOf (h : f.Takes ent) (str : Option ℕ)
    (hstr : ent.kind = .string → str ≠ none) :
    ∃ v, TraceJvm.constantOf str ent = some (some v) ∧ v.kind = f.reprKind := by
  have hrepr : f.reprKind = f.parsedDescriptor.declaredKind.representable :=
    f.parsedDescriptor.reprKind_eq
  unfold Takes at h
  rw [hrepr]
  cases hkind : f.parsedDescriptor.declaredKind with
  | boolean | byte | char | short | int | float | double | long =>
    rw [hkind] at h
    cases ent with
    | integer v | float v | long v | double v => first | exact ⟨_, rfl, rfl⟩ | cases h
    | other kind hother =>
      have heq : kind = _ := h
      rw [heq] at hother
      exact absurd (by decide) hother
  | reference =>
    rw [hkind] at h
    cases ent with
    | integer v | float v | long v | double v => exact absurd h.1 nofun
    | other kind hother =>
      obtain rfl : kind = .string := h.1
      obtain ⟨o, ho⟩ := ne_none_iff_exists'.mp (hstr rfl)
      rw [ho]
      exact ⟨_, rfl, rfl⟩
  | void =>
    rw [hkind] at h
    exact absurd h not_false

def constantStore (w : PointerWidth) (l : FieldLayout) (strings : ℕ → Option ℕ)
    (fields : List ConstantField) (i : ℕ) : Option CellStore :=
  (fields[i]?).bind fun f => f.constant.bind fun ent =>
    ((constantOf (strings i) ent).join).map fun v => (l.byteOffset i, v.cells w)

theorem ConstantsMeet.value (h : ConstantsMeet strings fields) (hf : fields[i]? = some f)
    (hent : f.constant = some ent) :
    f.isStatic = true ∧ ∃ v, constantOf (strings i) ent = some (some v) ∧ v.kind = f.reprKind := by
  have hhead := hent
  unfold ConstantField.constant at hhead
  rw [ite_none_right_eq_some, Bool.and_eq_true] at hhead
  have htakes := h.kinds f (mem_of_getElem? hf) ent (mem_of_mem_head? hhead.2)
  exact ⟨hhead.1.1, htakes.constantOf (strings i) (h.strings i f ent hf hent)⟩

/-- The loop stores for each field in turn. -/
theorem initializeLoop_eq (h : ConstantsMeet strings fields) {is : List ℕ}
    (his : ∀ i ∈ is, ∃ f, fields[i]? = some f) : initializeLoop w l strings fields is =
      some (false, is.filterMap (constantStore w l strings fields)) := by
  induction is with
  | nil => rfl
  | cons i is ih =>
    obtain ⟨f, hf⟩ := his i mem_cons_self
    have hrest := ih fun k hk => his k (mem_cons_of_mem i hk)
    have hstore : constantStore w l strings fields i = f.constant.bind fun ent =>
        ((constantOf (strings i) ent).join).map fun v => (l.byteOffset i, v.cells w) := by
      unfold constantStore
      rw [hf]
      rfl
    rw [initializeLoop, hf, filterMap_cons, hstore]
    dsimp only
    by_cases hfinal : (f.isStatic && f.isFinal) = true
    · have hconstant : f.constant = f.constantValues.head? := if_pos hfinal
      rw [if_pos hfinal, hconstant]
      cases hent : f.constantValues.head? with
      | none => exact hrest
      | some ent =>
        obtain ⟨-, v, hv, -⟩ := h.value hf (hconstant.trans hent)
        dsimp only [bind_some]
        rw [hv, hrest]
        dsimp only [join_some, map_some]
        rw [storedCells_kind, bind_some]
    · have hconstant : f.constant = none := if_neg hfinal
      rw [if_neg hfinal, hconstant]
      exact hrest

/-- If the loop ends well, it has a value for the first field, and goes on to the others. -/
theorem initializeLoop_cons {k : ℕ} {is : List ℕ} {stores : List CellStore}
    (h : initializeLoop w l strings fields (k :: is) = some (false, stores)) :
    (∃ rest, initializeLoop w l strings fields is = some (false, rest)) ∧
      ∀ f ent, fields[k]? = some f → f.constant = some ent →
        ∃ v, constantOf (strings k) ent = some (some v) := by
  rw [initializeLoop] at h
  cases hf : fields[k]? with
  | none =>
    rw [hf] at h
    cases h
  | some f =>
    rw [hf] at h
    dsimp only at h
    by_cases hfinal : (f.isStatic && f.isFinal) = true
    · have hconstant : f.constant = f.constantValues.head? := if_pos hfinal
      rw [if_pos hfinal, ← hconstant] at h
      cases hent : f.constant with
      | none =>
        rw [hent] at h
        refine ⟨⟨stores, h⟩, ?_⟩
        rintro _ ent ⟨⟩ hsome
        rw [hent] at hsome
        cases hsome
      | some first =>
        rw [hent] at h
        dsimp only at h
        cases hvalue : constantOf (strings k) first with
        | none =>
          rw [hvalue] at h
          cases h
        | some value =>
          rw [hvalue] at h
          cases value with
          | none => cases h
          | some v =>
            obtain ⟨cells, _, hmap⟩ := bind_eq_some_iff.mp h
            obtain ⟨r, hr, hstores⟩ := map_eq_some_iff.mp hmap
            have hresult : r = (false, r.2) := Prod.ext (Prod.mk.inj hstores).1 rfl
            rw [hresult] at hr
            refine ⟨⟨r.2, hr⟩, ?_⟩
            rintro _ ent ⟨⟩ hsome
            obtain rfl : first = ent := some.inj (hent.symm.trans hsome)
            exact ⟨v, hvalue⟩
    · have hconstant : f.constant = none := if_neg hfinal
      rw [if_neg hfinal] at h
      refine ⟨⟨stores, h⟩, ?_⟩
      rintro _ ent ⟨⟩ hsome
      rw [hconstant] at hsome
      cases hsome

theorem strings_of_initializeLoop {is : List ℕ} {stores : List CellStore}
    (h : initializeLoop w l strings fields is = some (false, stores)) :
    ∀ i ∈ is, ∀ f ent, fields[i]? = some f → f.constant = some ent → ent.kind = .string →
      strings i ≠ none := by
  induction is generalizing stores with
  | nil => exact fun i hi => absurd hi not_mem_nil
  | cons k is ih =>
    obtain ⟨⟨rest, hrest⟩, hvalues⟩ := initializeLoop_cons h
    intro i hi f ent hf hent hkind hnone
    rcases mem_cons.mp hi with rfl | htail
    · obtain ⟨v, hv⟩ := hvalues f ent hf hent
      cases ent with
      | integer v | float v | long v | double v => cases hkind
      | other kind hother =>
        obtain rfl : kind = .string := hkind
        rw [hnone] at hv
        cases hv
    · exact ih hrest i htail f ent hf hent hkind hnone

theorem constantStore_spec {s : CellStore} (h : ConstantsMeet strings fields)
    (hs : constantStore w l strings fields i = some s) : ∃ f, fields[i]? = some f ∧
      f.isStatic = true ∧ (f.firstValue (strings i)).kind = f.reprKind ∧
      s = (l.byteOffset i, (f.firstValue (strings i)).cells w) := by
  obtain ⟨f, hf, hs⟩ := bind_eq_some_iff.mp hs
  obtain ⟨ent, hent, hs⟩ := bind_eq_some_iff.mp hs
  obtain ⟨hstatic, v, hv, hkind⟩ := h.value hf hent
  have hfirst : f.firstValue (strings i) = v := by
    unfold ConstantField.firstValue
    rw [hent]
    dsimp only
    rw [hv]
    rfl
  rw [hv] at hs
  refine ⟨f, hf, hstatic, ?_⟩
  rw [hfirst]
  exact ⟨hkind, (some.inj hs).symm⟩

theorem firstValue_of_constantStore (h : ConstantsMeet strings fields) (hf : fields[i]? = some f)
    (hs : constantStore w l strings fields i = none) :
    f.firstValue (strings i) = .zero f.reprKind := by
  unfold constantStore at hs
  rw [hf, bind_some] at hs
  unfold ConstantField.firstValue
  cases hent : f.constant with
  | none => rfl
  | some ent =>
    obtain ⟨-, v, hv, -⟩ := h.value hf hent
    rw [hent, bind_some, hv] at hs
    cases hs

variable {padding : Option ℕ} {base : ℕ}

theorem declaredFields_getElem? (hf : fields[i]? = some f) :
    (declaredFields padding fields).fields[i]? = some f.toDeclaredField := by
  show (fields.map ConstantField.toDeclaredField)[i]? = _
  rw [getElem?_map, hf]
  rfl

theorem constantStore_apart (hlaid : LaidOut w (declaredFields padding fields) base l)
    (h : ConstantsMeet strings fields) {k n : ℕ} {s : CellStore} (hf : fields[i]? = some f)
    (hstatic : f.isStatic = true) (hn : sizeofTypeKind w f.reprKind = some n)
    (hs : constantStore w l strings fields k = some s) (hne : k ≠ i) :
    Apart s.1 s.2.length (l.byteOffset i) n := by
  obtain ⟨g, hg, hgstatic, hkind, rfl⟩ := constantStore_spec h hs
  have hsize := (g.firstValue (strings k)).sizeof_kind w
  rw [hkind] at hsize
  exact hlaid.disjoint_of_ne (declaredFields_getElem? hg) (declaredFields_getElem? hf)
    (hgstatic.trans hstatic.symm) hsize hn hne

/-- The slot of a static field after all stores. -/
theorem read_constantStores (hlaid : LaidOut w (declaredFields padding fields) base l)
    (h : ConstantsMeet strings fields) (hf : fields[i]? = some f) (hstatic : f.isStatic = true)
    (hkind : (f.firstValue (strings i)).kind = f.reprKind) :
    let v := f.firstValue (strings i)
    read (writeAll (fun _ => byte 0) ((List.range fields.length).filterMap
      (constantStore w l strings fields))) (l.byteOffset i) (v.cells w).length = v.cells w := by
  intro v
  have hsize := v.sizeof_kind w
  rw [hkind] at hsize
  have hi : i ∈ List.range fields.length := List.mem_range.mpr (List.getElem?_eq_some_iff.mp hf).1
  have hnodup := nodup_range (n := fields.length)
  obtain ⟨before, after, hsplit⟩ := append_of_mem hi
  rw [hsplit] at hnodup ⊢
  rw [filterMap_append, filterMap_cons]
  have hafter : ∀ s ∈ after.filterMap (constantStore w l strings fields),
      Apart s.1 s.2.length (l.byteOffset i) (v.cells w).length := by
    intro s hs
    obtain ⟨k, hk, hstore⟩ := mem_filterMap.mp hs
    have hne : k ≠ i := by
      rintro rfl
      exact (nodup_cons.mp (nodup_append.mp hnodup).2.1).1 hk
    exact constantStore_apart hlaid h hf hstatic hsize hstore hne
  cases hstore : constantStore w l strings fields i with
  | some s =>
    obtain ⟨g, hg, _, _, rfl⟩ := constantStore_spec h hstore
    rw [hf] at hg
    rw [← some.inj hg]
    exact read_writeAll_mem hafter
  | none =>
    have hbefore : ∀ s ∈ before.filterMap (constantStore w l strings fields),
        Apart s.1 s.2.length (l.byteOffset i) (v.cells w).length := by
      intro s hs
      obtain ⟨k, hk, hstore⟩ := mem_filterMap.mp hs
      have hne : k ≠ i := (nodup_append.mp hnodup).2.2 k hk i mem_cons_self
      exact constantStore_apart hlaid h hf hstatic hsize hstore hne
    have hzero : v = .zero f.reprKind := firstValue_of_constantStore h hf hstore
    have hall := forall_mem_append.mpr ⟨hbefore, hafter⟩
    dsimp only
    rw [read_writeAll_apart hall, hzero]
    conv_rhs => rw [FieldValue.cells_zero]
    rw [read_const]

/-- A static field is read back at the kind of its slot and at its declared type. -/
theorem load_firstValue {mem : CellMemory} (hkind : (f.firstValue (strings i)).kind = f.reprKind)
    (hread : read mem (l.byteOffset i) ((f.firstValue (strings i)).cells w).length =
      (f.firstValue (strings i)).cells w) :
    let kind := f.parsedDescriptor.declaredKind
    let v := f.firstValue (strings i)
    loadStackValue w mem (l.byteOffset i) f.reprKind = some v ∧
      (FieldValue.narrow kind v = v → loadStackValue w mem (l.byteOffset i) kind = some v) := by
  intro kind v
  have hload : loadStackValue w mem (l.byteOffset i) f.reprKind = some v := by
    rw [← hkind]
    exact loadStackValue_of_read hread
  have hrepr : f.reprKind = kind.representable := f.parsedDescriptor.reprKind_eq
  constructor
  · exact hload
  · intro hnarrow
    by_cases hint : kind.representable = .int
    · have hvkind : v.kind = .int := hkind.trans (hrepr.trans hint)
      cases hv : v with
      | int x =>
        change read mem (l.byteOffset i) (v.cells w).length = v.cells w at hread
        have hcells : (FieldValue.int x).cells w = encodeNumber 4 x.toNat := rfl
        rw [hv, hcells, length_encodeNumber] at hread
        rw [hv] at hnarrow
        exact loadStackValue_narrow hread hint (FieldValue.int.inj hnarrow)
      | long x | float x | double x | reference x =>
        rw [hv] at hvkind
        cases hvkind
    · have hsame : kind.representable = kind := by
        cases hk : kind <;> first | rfl | exact absurd (congrArg TypeKind.representable hk) hint
      rw [← hsame, ← hrepr]
      exact hload

/-- The fields of a linked class have a kind with a size. -/
theorem firstValue_kind {objHeader : ℕ} {super : Option FieldLayout}
    (hlink : linkFields w objHeader super (declaredFields padding fields) = some l)
    (h : ConstantsMeet strings fields) (hf : fields[i]? = some f) :
    (f.firstValue (strings i)).kind = f.reprKind := by
  cases hstore : constantStore w l strings fields i with
  | some s =>
    obtain ⟨g, hg, _, hkind, _⟩ := constantStore_spec h hstore
    rw [hf] at hg
    rw [some.inj hg]
    exact hkind
  | none =>
    have hall := (ite_none_right_eq_some.mp hlink).1
    have hvoid : f.reprKind ≠ .void :=
      of_decide_eq_true (all_eq_true.mp hall _ (mem_of_getElem? (declaredFields_getElem? hf)))
    have hrepr : f.reprKind = f.parsedDescriptor.declaredKind.representable :=
      f.parsedDescriptor.reprKind_eq
    rw [firstValue_of_constantStore h hf hstore]
    rw [hrepr] at hvoid ⊢
    exact FieldValue.zero_kind hvoid

/-- The static fields of a linked class get their first values if and only if each `ConstantValue`
has a constant for the type of its field and the strings can be made. -/
theorem constants_right_iff {objHeader : ℕ} {super : Option FieldLayout}
    (hlink : linkFields w objHeader super (declaredFields padding fields) = some l)
    (strings : ℕ → Option ℕ) :
    ConstantsRight w l strings fields ↔ ConstantsMeet strings fields := by
  obtain ⟨hlaid, -, -⟩ := linkFields_laidOut hlink
  constructor
  · intro h
    obtain ⟨stores, hrun, -, -⟩ := h.initialized
    constructor
    · exact h.kinds
    · intro i f ent hf hent hkind
      have hi : i ∈ List.range fields.length :=
        List.mem_range.mpr (List.getElem?_eq_some_iff.mp hf).1
      exact strings_of_initializeLoop hrun i hi f ent hf hent hkind
  · intro h
    have hrun : initializeConstantValueFields w l strings fields = _ :=
      initializeLoop_eq h fun i hi => ⟨_, getElem?_eq_getElem (mem_range.mp hi)⟩
    constructor
    · exact h.kinds
    refine ⟨_, hrun, ?_, ?_⟩
    · intro s hs
      obtain ⟨i, -, hstore⟩ := mem_filterMap.mp hs
      obtain ⟨f, hf, hstatic, hkind, rfl⟩ := constantStore_spec h hstore
      have hsize := (f.firstValue (strings i)).sizeof_kind w
      rw [hkind] at hsize
      have hplaced := hlaid.mem_ownFields.mpr
        ⟨i, f.toDeclaredField, _, declaredFields_getElem? hf, hstatic, hsize, rfl⟩
      exact ((hlaid.wellPlaced true).bounds _ hplaced).2.2
    · intro i f hf hstatic
      have hkind := firstValue_kind hlink h hf
      exact load_firstValue hkind (read_constantStores hlaid h hf hstatic hkind)

end

/-- A `static int`, final if it has a `ConstantValue`. -/
def staticInt (constantValues : List (List UInt8)) : FieldInfo where
  parsedDescriptor := .ofKind .int
  isStatic := true
  isFinal := !constantValues.isEmpty
  className := ""
  constantValues := constantValues

def parsedStaticInt (constantValues : List CpEntry) : ConstantField where
  parsedDescriptor := .ofKind .int
  isStatic := true
  isFinal := !constantValues.isEmpty
  className := ""
  constantValues := constantValues

/-- A final field with a constant beside one without. -/
theorem constants_right_seven : ∃ l,
    linkFields .bits64 16 none (declaredFields none
      [parsedStaticInt [.integer 7], parsedStaticInt []]) = some l ∧
    ConstantsRight .bits64 l (fun _ => none)
      [parsedStaticInt [.integer 7], parsedStaticInt []] := by
  obtain ⟨l, hlink⟩ := linkFields_isSome (w := .bits64) (c := declaredFields none
    [parsedStaticInt [.integer 7], parsedStaticInt []]) (by decide) 16 none
  refine ⟨l, hlink, (constants_right_iff hlink _).mpr ⟨?_, ?_⟩⟩
  · intro f hf ent hent
    rcases mem_cons.mp hf with rfl | hf
    · rw [mem_singleton.mp hent]
      rfl
    · rw [mem_singleton.mp hf] at hent
      exact absurd hent not_mem_nil
  · intro i f ent hf hent hkind
    rcases i with _ | _ | i
    · cases hf
      cases hent
      cases hkind
    · cases hf
      cases hent
    · cases hf

/-- The parser takes a `long` for an `int`, and the store reaches into the next field. -/
theorem constant_overwrites_neighbour : ∃ fields l stores,
    parseFields [.other .invalid (by decide), .long (-1)] [staticInt [[0, 1]], staticInt []] =
      .ok fields ∧
    linkFields .bits64 16 none (declaredFields none fields) = some l ∧
    initializeConstantValueFields .bits64 l (fun _ => none) fields = some (false, stores) ∧
    loadStackValue .bits64 (writeAll (fun _ => byte 0) stores) (l.byteOffset 1) .int =
      some (.int (-1)) ∧
    ¬ ConstantsRight .bits64 l (fun _ => none) fields := by
  refine ⟨[parsedStaticInt [.long (-1)], parsedStaticInt []], _, _, rfl, rfl, rfl, by decide, ?_⟩
  intro h
  exact absurd (h.kinds _ mem_cons_self _ mem_cons_self) nofun

end TraceJvm
