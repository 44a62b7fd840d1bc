import TraceJvm.Linkage

/-! `vtable.c`: the virtual and interface method tables that linking gives to a class. A method
pointer is the method record itself, which carries its class and its position in it. -/
namespace TraceJvm

/-- `cp_method`, as far as method lookup and the tables read it. -/
structure CpMethod where
  /-- `my_class` -/
  cls : ℕ
  /-- `my_index` -/
  index : ℕ
  name : String
  descriptor : String
  isPublic : Bool
  isProtected : Bool
  isPrivate : Bool
  isStatic : Bool
  isAbstract : Bool
  isSignaturePolymorphic : Bool
  deriving DecidableEq

namespace CpMethod

def isCtor (m : CpMethod) : Bool := m.name = "<init>"

def isClinit (m : CpMethod) : Bool := m.name = "<clinit>"

/-- `method_candidate_matches`, with a descriptor. -/
def candidateMatches (m : CpMethod) (name descriptor : String) : Bool :=
  m.name = name ∧ (m.isSignaturePolymorphic ∨ m.descriptor = descriptor)

/-- `itable_include`, which is also the part of `vtable_include` that reads the method only. -/
def isVirtual (m : CpMethod) : Bool := !m.isCtor && !m.isClinit && !m.isStatic

end CpMethod

/-- The loaded classes with their methods. `loader` is the defining loader. -/
structure ClassWorld extends Hierarchy where
  className : ℕ → String
  loader : ℕ → ℕ
  isInterface : ℕ → Bool
  methods : ℕ → List CpMethod
  my_class : ∀ {c : ℕ} {m : CpMethod}, m ∈ methods c → m.cls = c
  my_index : ∀ {c i : ℕ} {m : CpMethod}, (methods c)[i]? = some m → m.index = i

def packageName (name : String) : Option (List Char) :=
  match name.toList.reverse.dropWhile (· != '/') with
  | [] => none
  | _ :: package => some package.reverse

namespace ClassWorld

theorem my_class_nil {c : ℕ} {m : CpMethod} (h : m ∈ ([] : List CpMethod)) : m.cls = c := by
  cases h

theorem my_index_nil {i : ℕ} {m : CpMethod} (h : ([] : List CpMethod)[i]? = some m) :
    m.index = i := by
  cases h

variable (W : ClassWorld)

/-- `super_class`; every array class extends `java/lang/Object`. -/
def superOf (r : ClassRef) : Option ClassRef :=
  if r.dims = 0 then (W.superClass r.base).map fun p => ⟨p, 0⟩ else some ⟨W.object, 0⟩

def interfacesOf (r : ClassRef) : List ClassRef :=
  if r.dims = 0 then (W.interfaces r.base).map fun p => ⟨p, 0⟩
  else [⟨W.cloneable, 0⟩, ⟨W.serializable, 0⟩]

def methodsOf (r : ClassRef) : List CpMethod :=
  if r.dims = 0 then W.methods r.base else []

/-- `access_flags & ACCESS_INTERFACE`, which no array class has. -/
def interfaceFlag (r : ClassRef) : Bool := decide (r.dims = 0) && W.isInterface r.base

/-- `same_runtime_package`, which compares package names only. -/
def sameRuntimePackage (a b : ℕ) : Bool :=
  packageName (W.className a) = packageName (W.className b)

/-- `method_overrides` for an overriding method that exists. -/
def methodOverrides (overrides overridden : CpMethod) : Bool :=
  if overrides.isPrivate then false
  else if !(overrides.isProtected || overrides.isPublic) then
    W.sameRuntimePackage overrides.cls overridden.cls
  else true

/-- `method_lookup` in the class itself. -/
def declared (r : ClassRef) (name descriptor : String) : Option CpMethod :=
  (W.methodsOf r).find? fun m => m.candidateMatches name descriptor

/-- A class followed by its superclasses, at most `depth` of them. -/
def chainAux : ℕ → ClassRef → List ClassRef
  | 0, r => [r]
  | depth + 1, r =>
      r :: match W.superOf r with
        | none => []
        | some p => chainAux depth p

def chain (r : ClassRef) : List ClassRef :=
  W.chainAux (if r.dims = 0 then r.base else W.object + 1) r

/-- `method_lookup` with `search_superclasses`: an array class is not searched itself. -/
def methodLookup (r : ClassRef) (name descriptor : String) : Option CpMethod :=
  let search := if r.dims = 0 then W.chain r else W.chain ⟨W.object, 0⟩
  search.findSome? fun c => W.declared c name descriptor

end ClassWorld

/-- `itable_method_t`: a method pointer and its two low bits. -/
structure ItableMethod where
  method : CpMethod
  invalid : Bool
  ambiguous : Bool
  deriving DecidableEq

namespace ItableMethod

def make (m : CpMethod) : ItableMethod := ⟨m, m.isAbstract, false⟩

def markAmbiguous (m : ItableMethod) : ItableMethod := ⟨m.method, true, true⟩

end ItableMethod

structure Itable where
  interface : ClassRef
  methods : List ItableMethod

/-- What `set_up_function_tables` writes: the tables of the class, and into its methods, by
their index, `vtable_index`, `overrides` and `itable_index`. -/
structure FunctionTables where
  vtable : List CpMethod
  itables : List Itable
  vtableIndex : ℕ → ℕ
  overrides : ℕ → Bool
  itableIndex : ℕ → ℕ

namespace FunctionTables

def empty : FunctionTables := ⟨[], [], fun _ => 0, fun _ => false, fun _ => 0⟩

/-- One iteration of the loop that copies the vtable of the superclass. `vtIndex` reads
`vtable_index` of a method of a superclass. -/
def copySlot (W : ClassWorld) (vtIndex : CpMethod → ℕ) (r : ClassRef) (t : FunctionTables)
    (method : CpMethod) : FunctionTables :=
  match W.declared r method.name method.descriptor with
  | some replacement =>
      if W.methodOverrides replacement method then
        { t with
          vtable := t.vtable ++ [replacement]
          vtableIndex := Function.update t.vtableIndex replacement.index (vtIndex method)
          overrides := Function.update t.overrides replacement.index true }
      else { t with vtable := t.vtable ++ [method] }
  | none => { t with vtable := t.vtable ++ [method] }

def pushVirtual (t : FunctionTables) (m : CpMethod) : FunctionTables :=
  if m.isVirtual && !t.overrides m.index then
    { t with
      vtable := t.vtable ++ [m]
      vtableIndex := Function.update t.vtableIndex m.index t.vtable.length }
  else t

end FunctionTables

/-- `identify`: the key and the length left in the scratch string, which bounds the next key. -/
def identify (len : ℕ) (m : CpMethod) : List Char × ℕ :=
  let name := m.name.toList.take len
  let key := name ++ ':' :: m.descriptor.toList.take (len - name.length)
  (key, key.length)

/-- `INIT_STACK_STRING(scratch, 1024)` -/
def scratchSize : ℕ := 1024

/-- The hash tables `discovered` and `ambiguous` with the length of the scratch string. -/
structure ConflictScan where
  len : ℕ
  discovered : List (List Char × CpMethod)
  ambiguous : List (List Char)

namespace ConflictScan

def start : ConflictScan := ⟨scratchSize, [], []⟩

def visit (W : ClassWorld) (c : ConflictScan) (ref : ItableMethod) : ConflictScan :=
  let underlying := ref.method
  if !W.isInterface underlying.cls then c
  else
    let (ident, len) := identify c.len underlying
    match c.discovered.lookup ident with
    | some existing =>
        if existing ≠ underlying ∨ ref.ambiguous then
          { c with len := len, ambiguous := ident :: c.ambiguous }
        else { c with len := len }
    | none =>
        if ref.ambiguous then { c with len := len, ambiguous := ident :: c.ambiguous }
        else { c with len := len, discovered := (ident, underlying) :: c.discovered }

end ConflictScan

namespace ClassWorld

variable (W : ClassWorld)

/-- The supertypes in the order of the loops of `setup_itables`. -/
def itableSources (r : ClassRef) : List ClassRef := W.interfacesOf r ++ (W.superOf r).toList

/-- One entry of `merge_itable`, given whether the identifier of the old entry is poisoned. -/
def mergeEntry (r : ClassRef) (poisoned : Bool) (d s : ItableMethod) : ItableMethod :=
  let result := if d.method.isAbstract ∨ d = s then s else d
  let result := if poisoned then result.markAmbiguous else result
  match W.methodLookup r d.method.name d.method.descriptor with
  | some m => if W.methodOverrides m d.method then .make m else result
  | none => result

/-- The loop of `merge_itable`; `len` is the length of its scratch string. -/
def mergeMethods (r : ClassRef) (poisoned : List (List Char)) :
    ℕ → List ItableMethod → List ItableMethod → List ItableMethod
  | len, d :: ds, s :: ss =>
      let (ident, len) := identify len d.method
      W.mergeEntry r (poisoned.contains ident) d s :: mergeMethods r poisoned len ds ss
  | _, ds, _ => ds

/-- The itable of the class for the interface of `src` after `src` has been merged: a copy of
`src` is pushed first if the class has none. -/
def mergeItable (r : ClassRef) (poisoned : List (List Char)) (src : Itable) :
    List Itable → List Itable
  | [] => [{ src with methods := W.mergeMethods r poisoned scratchSize src.methods src.methods }]
  | t :: ts =>
      if t.interface = src.interface then
        { t with methods := W.mergeMethods r poisoned scratchSize t.methods src.methods } :: ts
      else t :: mergeItable r poisoned src ts

/-- `setup_itables` over the tables of the supertypes. -/
def setupItables (tables : ClassRef → FunctionTables) (r : ClassRef) : List Itable :=
  let sources := (W.itableSources r).flatMap fun p => (tables p).itables
  let scan := (sources.flatMap Itable.methods).foldl (ConflictScan.visit W) .start
  sources.foldl (fun ts src => W.mergeItable r scan.ambiguous src ts) []

def itableMethods (r : ClassRef) : List CpMethod := (W.methodsOf r).filter CpMethod.isVirtual

def copyVtable (tables : ClassRef → FunctionTables) (r : ClassRef) : FunctionTables :=
  match W.superOf r with
  | some p =>
      let vtIndex (m : CpMethod) := (tables ⟨m.cls, 0⟩).vtableIndex m.index
      (tables p).vtable.foldl (FunctionTables.copySlot W vtIndex r) FunctionTables.empty
  | none => FunctionTables.empty

def addItables (tables : ClassRef → FunctionTables) (r : ClassRef) (t : FunctionTables) :
    FunctionTables :=
  let inherited := if (W.superOf r).isSome then W.setupItables tables r else []
  if W.interfaceFlag r then
    { t with
      itables := inherited ++ [⟨r, (W.itableMethods r).map .make⟩]
      itableIndex := fun i => (W.itableMethods r).findIdx fun m => m.index = i }
  else { t with itables := inherited }

/-- `set_up_function_tables`, given the tables of the classes already linked. -/
def setUpFunctionTables (tables : ClassRef → FunctionTables) (r : ClassRef) : FunctionTables :=
  (W.methodsOf r).foldl FunctionTables.pushVirtual (W.addItables tables r (W.copyVtable tables r))

/-- The tables after the classes below `n` have been linked. -/
def tablesBelow : ℕ → ClassRef → FunctionTables
  | 0 => fun _ => .empty
  | n + 1 => Function.update (tablesBelow n) ⟨n, 0⟩ (W.setUpFunctionTables (tablesBelow n) ⟨n, 0⟩)

def tables (r : ClassRef) : FunctionTables := W.setUpFunctionTables (W.tablesBelow (W.span r)) r

def vtableIndex (m : CpMethod) : ℕ := (W.tables ⟨m.cls, 0⟩).vtableIndex m.index

end ClassWorld

end TraceJvm
