import Mathlib.Data.List.Chain
import Mathlib.Tactic.Ring
import TraceJvm.Lib.BinaryReader

/-! The WebAssembly modules that the compiler of methods builds, and their binary form. -/
namespace TraceJvm

open List BinaryReader

/-! ### Numbers -/

/-- `wasm_writeuint` -/
def wasmWriteuint (value : ℕ) : List UInt8 :=
  if value / 128 = 0 then [UInt8.ofNat (value % 128)]
  else UInt8.ofNat (value % 128 + 128) :: wasmWriteuint (value / 128)
termination_by value
decreasing_by omega

/-- `wasm_writeint` -/
def wasmWriteint (value : ℤ) : List UInt8 :=
  let byte := (value % 128).toNat
  if value / 128 = 0 ∧ byte < 64 ∨ value / 128 = -1 ∧ 64 ≤ byte then [UInt8.ofNat byte]
  else UInt8.ofNat (byte + 128) :: wasmWriteint (value / 128)
termination_by value.natAbs
decreasing_by omega

theorem toNat_wasmByte {n : ℕ} (h : n < 256) : (UInt8.ofNat n).toNat = n :=
  UInt8.toNat_ofNat_of_lt' h

theorem reads_wasmWriteuint (value : ℕ) : Reads unsigned (wasmWriteuint value) value := by
  intro rest
  induction value using wasmWriteuint.induct with
  | case1 value h =>
    rw [wasmWriteuint, if_pos h, singleton_append, unsigned, toNat_wasmByte (by omega),
      if_pos (by omega), Nat.mod_eq_of_lt (by omega)]
  | case2 value h ih =>
    rw [wasmWriteuint, if_neg h, cons_append, unsigned, toNat_wasmByte (by omega),
      if_neg (by omega), ih, Option.map_some, Nat.add_sub_cancel, Nat.div_add_mod']

theorem reads_wasmWriteint (value : ℤ) : Reads signed (wasmWriteint value) value := by
  intro rest
  induction value using wasmWriteint.induct with
  | case1 value byte h =>
    rw [wasmWriteint, if_pos h, singleton_append, signed, toNat_wasmByte (by omega)]
    split_ifs <;> simp <;> omega
  | case2 value byte h ih =>
    rw [wasmWriteint, if_neg h, cons_append, signed, toNat_wasmByte (by omega), ih]
    split_ifs <;> simp <;> omega

theorem length_wasmWriteuint {value n : ℕ} (h : value < 128 ^ (n + 1)) :
    (wasmWriteuint value).length ≤ n + 1 := by
  induction n generalizing value with
  | zero =>
    rw [wasmWriteuint, if_pos (by omega)]
    exact Nat.le_refl _
  | succ n ih =>
    rw [wasmWriteuint]
    split
    · exact Nat.le_add_left _ _
    · exact Nat.succ_le_succ (ih (by rw [Nat.pow_succ] at h; omega))

theorem length_wasmWriteint {value : ℤ} {n : ℕ} (hlow : -(64 * 128 ^ n) ≤ value)
    (hhigh : value < 64 * 128 ^ n) : (wasmWriteint value).length ≤ n + 1 := by
  induction n generalizing value with
  | zero =>
    rw [wasmWriteint, if_pos (by omega)]
    exact Nat.le_refl _
  | succ n ih =>
    rw [wasmWriteint]
    split
    · exact Nat.le_add_left _ _
    · rw [Int.pow_succ] at hlow hhigh
      exact Nat.succ_le_succ (ih (by omega) (by omega))

/-- Every number is read back, whatever follows it, and takes as few bytes as its width allows: ten
for 64 bits and five for 32. -/
theorem wasm_numbers_readBack (u : ℕ) (i : ℤ) (rest : List UInt8) :
    unsigned (wasmWriteuint u ++ rest) = some (u, rest) ∧
      signed (wasmWriteint i ++ rest) = some (i, rest) ∧
      ∀ n, (u < 128 ^ (n + 1) → (wasmWriteuint u).length ≤ n + 1) ∧
        (-(64 * 128 ^ n) ≤ i → i < 64 * 128 ^ n → (wasmWriteint i).length ≤ n + 1) :=
  ⟨reads_wasmWriteuint u rest, reads_wasmWriteint i rest, fun _ =>
    ⟨length_wasmWriteuint, length_wasmWriteint⟩⟩

/-! ### Sections -/

/-- The bytes of a loop over some entries, after their number. -/
def writeVector {α : Type} (write : α → List UInt8) (as : List α) : List UInt8 :=
  wasmWriteuint as.length ++ as.flatMap write

def writeString (str : List UInt8) : List UInt8 := wasmWriteuint str.length ++ str

def writeSection (id : UInt8) (sect : List UInt8) : List UInt8 := [id] ++ writeString sect

theorem reads_writeVector {α β : Type} {p : Reader β} {write : α → List UInt8} {g : α → β}
    (h : ∀ a, Reads p (write a) (g a)) (as : List α) :
    Reads (vector p) (writeVector write as) (as.map g) :=
  (reads_wasmWriteuint _).vector fun a _ => h a

theorem reads_writeString (str : List UInt8) : Reads (vector byte) (writeString str) str :=
  Reads.bytes (reads_wasmWriteuint _)

theorem reads_writeSection {α : Type} {p : Reader α} {sect : List UInt8} {a : α} (id : UInt8)
    (h : Reads p sect a) : Reads (expect [id] *> sized p) (writeSection id sect) a :=
  (Reads.expected _).seqRight ((reads_wasmWriteuint _).sized h)

/-! ### Locals -/

/-- A kind of value, or an interned tuple. -/
inductive WasmType where
  | basic (kind : UInt8)
  | tuple (types : List UInt8)
  deriving DecidableEq

/-- The kinds that a type stands for. -/
def WasmType.kinds : WasmType → List UInt8
  | basic kind => if kind = 0 then [] else [kind]
  | tuple types => types

/-- The loop of `write_compressed_locals`. The last `n` locals have the type `t`. -/
def compressLocals (n : ℕ) (t : UInt8) : List UInt8 → List (ℕ × UInt8)
  | [] => [(n, t)]
  | u :: us => if u ≠ t then (n, t) :: compressLocals 1 u us else compressLocals (n + 1) t us

def writeCompressedLocals (locals : WasmType) : List UInt8 :=
  writeVector (fun r => wasmWriteuint r.1 ++ [r.2]) <| match locals with
    | .tuple (t :: ts) => compressLocals 1 t ts
    | _ => []

theorem compressLocals_head (n : ℕ) (t : UInt8) (ts : List UInt8) :
    ∀ r ∈ (compressLocals n t ts).head?, r.2 = t := by
  induction ts generalizing n with
  | nil => simp [compressLocals]
  | cons u us ih =>
    rw [compressLocals]
    split
    · simp
    · exact ih (n + 1)

theorem compressLocals_spec {n : ℕ} {t : UInt8} (hn : 0 < n) (ts : List UInt8) :
    (compressLocals n t ts).flatMap (fun r => replicate r.1 r.2) = replicate n t ++ ts ∧
      (compressLocals n t ts).IsChain (·.2 ≠ ·.2) ∧ ∀ r ∈ compressLocals n t ts, 0 < r.1 := by
  induction ts generalizing n t with
  | nil => simp [compressLocals, hn]
  | cons u us ih =>
    rw [compressLocals]
    split
    · rename_i hne
      obtain ⟨hexpand, hchain, hpos⟩ := ih (t := u) Nat.one_pos
      refine ⟨?_, isChain_cons.mpr ⟨fun r hr => ?_, hchain⟩, forall_mem_cons.mpr ⟨hn, hpos⟩⟩
      · rw [flatMap_cons, hexpand]
        rfl
      · rw [compressLocals_head 1 u us r hr]
        exact hne.symm
    · rename_i heq
      obtain ⟨hexpand, hrest⟩ := ih (t := t) (Nat.succ_pos n)
      refine ⟨?_, hrest⟩
      rw [hexpand, replicate_succ', append_assoc, not_not.mp heq]
      rfl

/-- The locals of a function are read back from runs, none of them empty and none of the type of
the run before it. -/
theorem compressedLocals_readBack (types rest : List UInt8) :
    ∃ runs, vector (pair unsigned byte) (writeCompressedLocals (.tuple types) ++ rest) =
        some (runs, rest) ∧
      runs.flatMap (fun r => replicate r.1 r.2) = types ∧ runs.IsChain (·.2 ≠ ·.2) ∧
      ∀ r ∈ runs, 0 < r.1 := by
  have hread (runs : List (ℕ × UInt8)) :
      vector (pair unsigned byte) (writeVector (fun r => wasmWriteuint r.1 ++ [r.2]) runs ++ rest) =
        some (runs, rest) := by
    have h := reads_writeVector (g := id) (fun r : ℕ × UInt8 => (reads_wasmWriteuint r.1).pair
      (show Reads byte [r.2] r.2 from fun _ => rfl)) runs rest
    rwa [map_id] at h
  cases types with
  | nil => exact ⟨[], hread [], rfl, .nil, nofun⟩
  | cons t ts =>
    obtain ⟨hexpand, hchain, hpos⟩ := compressLocals_spec (t := t) Nat.one_pos ts
    exact ⟨_, hread _, hexpand, hchain, hpos⟩

/-! ### Modules -/

abbrev FunctionType := WasmType × WasmType

def FunctionType.kinds (t : FunctionType) : List UInt8 × List UInt8 := (t.1.kinds, t.2.kinds)

def writeTupleType : WasmType → List UInt8
  | .tuple types => writeString types
  | .basic kind => if kind = 0 then [0] else [1, kind]

structure WasmFunction where
  name : List UInt8
  type : FunctionType
  exported : Bool
  my_index : ℕ
  /-- what `serialize_function_locals_and_code` writes -/
  code : List UInt8

structure WasmImport where
  module : List UInt8
  name : List UInt8
  type : ℕ
  associated : WasmFunction

theorem getElem?_kept {α : Type} {l l' : List α} {n : ℕ} {a : α} (h : l <+: l')
    (hn : l[n]? = some a) : l'[n]? = some a := by
  obtain ⟨hlt, rfl⟩ := List.getElem?_eq_some_iff.mp hn
  exact prefix_iff_getElem?.mp h n hlt

/-- A module, each of whose imports has the type that it was registered with. -/
structure WasmModule where
  imports : List WasmImport
  functions : List WasmFunction
  fn_types : List FunctionType
  typed : ∀ i ∈ imports, fn_types[i.type]? = some i.associated.type

inductive ImportDesc where
  | func (type : ℕ)
  | table (initial : ℕ)
  | memory (initial : ℕ)

def ImportDesc.write : ImportDesc → List UInt8
  | func type => [0] ++ wasmWriteuint type
  | table initial => [1] ++ ([0x70, 0] ++ wasmWriteuint initial)
  | memory initial => [2] ++ ([0] ++ wasmWriteuint initial)

/-- The names of an import, and what is imported. -/
abbrev ImportEntry := List UInt8 × List UInt8 × ImportDesc

def predefinedImports : List ImportEntry :=
  [([101, 110, 118, 50], [109, 101, 109, 111, 114, 121], .memory 1),
    ([101, 110, 118, 50], [116, 97, 98, 108, 101], .table 1)]

def wasmModuleCreate : WasmModule := ⟨[], [], [], nofun⟩

def wasmHeader : List UInt8 := [0, 97, 115, 109, 1, 0, 0, 0]

namespace WasmModule

variable (m : WasmModule)

def registerFunctionType (search : FunctionType) : WasmModule × ℕ :=
  if search ∈ m.fn_types then (m, m.fn_types.idxOf search)
  else ({ m with
    fn_types := m.fn_types ++ [search]
    typed := fun i hi => getElem?_kept (prefix_append _ _) (m.typed i hi) }, m.fn_types.length)

theorem registerFunctionType_spec (search : FunctionType) :
    (m.registerFunctionType search).1.fn_types[(m.registerFunctionType search).2]? = some search ∧
      m.fn_types <+: (m.registerFunctionType search).1.fn_types := by
  unfold registerFunctionType
  split
  · rename_i h
    exact ⟨getElem?_idxOf h, prefix_rfl⟩
  · exact ⟨getElem?_concat_length, prefix_append _ _⟩

/-- `wasm_import_runtime_function_impl` -/
def importRuntimeFunction (fn : WasmFunction) : WasmModule :=
  if m.imports.any (·.name = fn.name) then m
  else
    let r := m.registerFunctionType fn.type
    { r.1 with
      imports := r.1.imports ++ [⟨[101, 110, 118], fn.name, r.2, fn⟩]
      typed := by
        intro i hi
        rcases mem_append.mp hi with hi | hi
        · exact r.1.typed i hi
        · obtain rfl := mem_singleton.mp hi
          exact (m.registerFunctionType_spec fn.type).1 }

/-- `wasm_add_function` -/
def addFunction (fn : WasmFunction) : WasmModule :=
  { m with functions := m.functions ++ [fn] }

/-- The module imports a function of the runtime or is given a function of its own. -/
def build : WasmFunction ⊕ WasmFunction → WasmModule
  | .inl fn => m.importRuntimeFunction fn
  | .inr fn => m.addFunction fn

def serializeTypesection : List UInt8 := writeSection 1 <|
  writeVector (fun t => [0x60] ++ (writeTupleType t.1 ++ writeTupleType t.2)) m.fn_types

def importEntries : List ImportEntry :=
  predefinedImports ++ m.imports.map fun i => (i.module, i.name, .func i.type)

def serializeImportsection : List UInt8 := writeSection 2 <|
  writeVector (fun i => writeString i.1 ++ (writeString i.2.1 ++ i.2.2.write)) m.importEntries

/-- The loop of `serialize_functionsection` from `fn_index` on: the functions with their indices,
and the types that are written. -/
def numberFunctions (m : WasmModule) (fn_index : ℕ) :
    List WasmFunction → WasmModule × List WasmFunction × List ℕ
  | [] => (m, [], [])
  | fn :: fns =>
    let (m, typeidx) := m.registerFunctionType fn.type
    let (m, fns, types) := numberFunctions m (fn_index + 1) fns
    (m, { fn with my_index := fn_index } :: fns, typeidx :: types)

def serializeExportsection : List UInt8 := writeSection 7 <|
  writeVector (fun fn => writeString fn.name ++ ([0] ++ wasmWriteuint fn.my_index))
    (m.functions.filter (·.exported))

def serializeCodesection : List UInt8 := writeSection 10 <|
  writeVector (fun fn => writeString fn.code) m.functions

/-- The type section is written first, after the functions have registered their types. -/
def wasmModuleSerialize : WasmModule × List UInt8 :=
  let (m', functions, types) := m.numberFunctions m.imports.length m.functions
  let m' := { m' with functions }
  (m', wasmHeader ++ m'.serializeTypesection ++ m.serializeImportsection ++
    writeSection 3 (writeVector wasmWriteuint types) ++ m'.serializeExportsection ++
    m'.serializeCodesection)

end WasmModule

/-! ### Reading a module -/

structure BinaryModule where
  types : List (List UInt8 × List UInt8)
  imports : List ImportEntry
  functions : List ℕ
  exports : List (List UInt8 × ℕ)
  codes : List (List UInt8)

def readDesc : Reader ImportDesc := do
  match ← byte with
  | 0 => .func <$> unsigned
  | 1 => expect [0x70, 0] *> (.table <$> unsigned)
  | 2 => expect [0] *> (.memory <$> unsigned)
  | _ => failure

def readModule : Reader BinaryModule :=
  expect wasmHeader *> (BinaryModule.mk <$> (expect [1] *> sized (vector
      (expect [0x60] *> pair (vector byte) (vector byte))))) <*>
    (expect [2] *> sized (vector
      (pair (vector byte) (pair (vector byte) readDesc)))) <*>
    (expect [3] *> sized (vector unsigned)) <*>
    (expect [7] *> sized (vector (pair (vector byte) (expect [0] *> unsigned)))) <*>
    (expect [10] *> sized (vector (vector byte)))

/-- The signatures of all functions that the module can name, by their index. -/
def BinaryModule.signatures (b : BinaryModule) : List (Option (List UInt8 × List UInt8)) :=
  ((b.imports.filterMap fun i => match i.2.2 with
    | .func type => some type
    | _ => none) ++ b.functions).map (b.types[·]?)

theorem reads_writeTupleType (t : WasmType) : Reads (vector byte) (writeTupleType t) t.kinds := by
  cases t with
  | tuple types => exact reads_writeString types
  | basic kind =>
    by_cases hk : kind = 0
    · simpa [writeTupleType, WasmType.kinds, hk, writeString, wasmWriteuint] using
        reads_writeString []
    · simpa [writeTupleType, WasmType.kinds, hk, writeString, wasmWriteuint] using
        reads_writeString [kind]

theorem ImportDesc.reads_write (d : ImportDesc) : Reads readDesc d.write d := by
  cases d with
  | func type => exact Reads.bind (a := 0) (fun _ => rfl) ((reads_wasmWriteuint type).map _)
  | table n =>
    refine Reads.bind (a := 1) (fun _ => rfl) ?_
    exact (Reads.expected _).seqRight ((reads_wasmWriteuint n).map _)
  | memory n =>
    refine Reads.bind (a := 2) (fun _ => rfl) ?_
    exact (Reads.expected _).seqRight ((reads_wasmWriteuint n).map _)

namespace WasmModule

theorem numberFunctions_spec {m : WasmModule} {n : ℕ} (fns : List WasmFunction) :
    let r := m.numberFunctions n fns
    m.fn_types <+: r.1.fn_types ∧
      r.2.1 = (fns.zipIdx n).map (fun p => { p.1 with my_index := p.2 }) ∧
      r.2.2.map (r.1.fn_types[·]?) = fns.map (some ·.type) := by
  induction fns generalizing m n with
  | nil => exact ⟨prefix_rfl, rfl, rfl⟩
  | cons fn fns ih =>
    obtain ⟨hget, hle⟩ := m.registerFunctionType_spec fn.type
    obtain ⟨htypes, hfns, hidx⟩ := ih (m := (m.registerFunctionType fn.type).1) (n := n + 1)
    refine ⟨hle.trans htypes, ?_, ?_⟩
    · exact congrArg (_ :: ·) hfns
    · exact congrArg₂ cons (getElem?_kept htypes hget) hidx

variable (m : WasmModule)

/-- The bytes that are written are read as what they were written from. -/
theorem wasmModuleSerialize_reads :
    let r := m.numberFunctions m.imports.length m.functions
    readModule m.wasmModuleSerialize.2 = some (⟨r.1.fn_types.map FunctionType.kinds,
      m.importEntries, r.2.2, (r.2.1.filter (·.exported)).map fun fn => (fn.name, fn.my_index),
      r.2.1.map (·.code)⟩, []) := by
  intro r
  have htypes := reads_writeSection 1 <| reads_writeVector (g := FunctionType.kinds)
    (fun t : FunctionType => (Reads.expected [0x60]).seqRight <|
      (reads_writeTupleType t.1).pair (reads_writeTupleType t.2)) r.1.fn_types
  have himports := reads_writeSection 2 <| reads_writeVector (g := id)
    (fun i : ImportEntry => (reads_writeString i.1).pair <|
      (reads_writeString i.2.1).pair i.2.2.reads_write) m.importEntries
  have hfunctions := reads_writeSection 3 <| reads_writeVector (g := id) reads_wasmWriteuint r.2.2
  have hexports := reads_writeSection 7 <| reads_writeVector (g := fun fn => (fn.name, fn.my_index))
    (fun fn : WasmFunction => (reads_writeString fn.name).pair <|
      (Reads.expected [0]).seqRight (reads_wasmWriteuint fn.my_index)) (r.2.1.filter (·.exported))
  have hcodes := reads_writeSection 10 <| reads_writeVector (g := (·.code))
    (fun fn : WasmFunction => reads_writeString fn.code) r.2.1
  rw [map_id] at himports hfunctions
  have hmk := (Reads.expected wasmHeader).seqRight (htypes.map BinaryModule.mk)
  have h := ((((hmk.seq himports).seq hfunctions).seq hexports).seq hcodes) []
  rwa [append_nil] at h

end WasmModule

/-- A module is read as its functions: each index has the type of its import or function, and the
exports and the code are those of the functions. -/
theorem wasmModule_readsBack (m : WasmModule) :
    ∃ b, readModule m.wasmModuleSerialize.2 = some (b, []) ∧
      b.signatures = (m.imports.map (·.associated) ++ m.functions).map
        (fun fn => some (fn.type.kinds)) ∧
      b.imports = m.importEntries ∧
      b.exports = ((m.functions.zipIdx m.imports.length).filter (·.1.exported)).map
        (fun p => (p.1.name, p.2)) ∧
      b.codes = m.functions.map (·.code) := by
  obtain ⟨hle, hfns, hidx⟩ :=
    WasmModule.numberFunctions_spec (m := m) (n := m.imports.length) m.functions
  refine ⟨_, m.wasmModuleSerialize_reads, ?_, rfl, ?_, ?_⟩
  · rw [BinaryModule.signatures, map_append, map_append]
    congr 1
    · rw [WasmModule.importEntries, filterMap_append, filterMap_map]
      change (filterMap (fun i => some i.type) m.imports).map _ = _
      rw [filterMap_eq_map', map_map, map_map]
      refine map_congr_left fun i hi => ?_
      have himport := getElem?_kept hle (m.typed i hi)
      simp [himport]
    · have h := congrArg (map (Option.map FunctionType.kinds)) hidx
      rw [map_map, map_map] at h
      simpa [Function.comp_def] using h
  · rw [hfns, filter_map, map_map]
    rfl
  · have h := congrArg (map WasmFunction.code) (zipIdx_map_fst m.imports.length m.functions)
    rw [map_map] at h
    rw [hfns, map_map]
    exact h

/-! ### Building a module -/

namespace WasmModule

/-- No function is imported twice and no type is registered twice. -/
def Interned (m : WasmModule) : Prop := (m.imports.map (·.name)).Nodup ∧ m.fn_types.Nodup

variable {m : WasmModule}

theorem Interned.register (h : m.Interned) (search : FunctionType) :
    (m.registerFunctionType search).1.Interned ∧
      (m.registerFunctionType search).1.imports = m.imports := by
  unfold registerFunctionType
  split
  · exact ⟨h, rfl⟩
  · rename_i hnew
    exact ⟨⟨h.1, (perm_append_singleton _ _).nodup_iff.mpr (nodup_cons.mpr ⟨hnew, h.2⟩)⟩, rfl⟩

theorem Interned.build (h : m.Interned) (step : WasmFunction ⊕ WasmFunction) :
    (m.build step).Interned := by
  cases step with
  | inr fn => exact h
  | inl fn =>
    show (m.importRuntimeFunction fn).Interned
    unfold importRuntimeFunction
    split
    · exact h
    · rename_i hnew
      obtain ⟨⟨hnames, htypes⟩, himports⟩ := h.register fn.type
      refine ⟨?_, htypes⟩
      show (map _ (_ ++ _)).Nodup
      rw [map_append, himports]
      apply (perm_append_singleton _ _).nodup_iff.mpr
      refine nodup_cons.mpr ⟨fun hmem => hnew ?_, h.1⟩
      simpa using hmem

theorem Interned.number (h : m.Interned) (n : ℕ) (fns : List WasmFunction) :
    (m.numberFunctions n fns).1.Interned := by
  induction fns generalizing m n with
  | nil => exact h
  | cons fn fns ih => exact ih (h.register fn.type).1 (n + 1)

end WasmModule

/-- However a module is built, it never holds a runtime function or a type twice, and neither does
what is written. -/
theorem wasmModule_interned (steps : List (WasmFunction ⊕ WasmFunction)) :
    let m := steps.foldl WasmModule.build wasmModuleCreate
    m.Interned ∧ m.wasmModuleSerialize.1.Interned := by
  have hbuilt : ∀ m : WasmModule, m.Interned → (steps.foldl WasmModule.build m).Interned := by
    induction steps with
    | nil => exact fun _ h => h
    | cons step steps ih => exact fun m h => ih _ (h.build step)
  have h := hbuilt wasmModuleCreate ⟨.nil, .nil⟩
  exact ⟨h, h.number _ _⟩

end TraceJvm
