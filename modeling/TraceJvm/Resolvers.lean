import TraceJvm.FunctionTables
import TraceJvm.Classfile

/-! The resolution routines of the interpreter: class lookup through a loader, constant pool classes,
fields and methods, and the classes of a descriptor. They are entered without a pending exception;
their results are the resolved target and the exception that they leave. -/
namespace TraceJvm

inductive ResolutionError where
  | classNotFound (name : List Char)
  | incompatibleClassChange (message : List Char)
  | linkage (e : Throwable)
  /-- Thrown by Java code or by the definition of a class. -/
  | thrown (id : ℕ)

/-- `cp_field`, as far as `field_lookup` reads it. -/
structure FieldDecl where
  name : List Char
  descriptor : List Char
  id : ℕ

structure FieldWorld extends ClassWorld where
  fields : ℕ → List FieldDecl
  primitiveClass : TypeKind → ℕ

/-- A class loader: its `initiating` table and what loading a class that is not in it yields. -/
structure ClassLoader where
  isBootstrap : Bool
  initiating : List Char → Option ℕ
  /-- `bootstrap_load_class_from_fs`; nothing at all where the class path has no such file. -/
  loadFromFs : List Char → Option ℕ × Option ResolutionError
  /-- The string with the name of the class can be allocated. -/
  makesString : List Char → Bool
  /-- The class that `loadClass` returns, possibly null, and the exception that it throws. -/
  loadClass : List Char → Option ℕ × Option ResolutionError

structure Resolved (α : Type) where
  target : Option α
  exception : Option ResolutionError

/-- `read_type_kind_char`; `none` is the failing check. -/
def readTypeKindChar : Char → Option TypeKind
  | 'Z' => some .boolean
  | 'B' => some .byte
  | 'C' => some .char
  | 'S' => some .short
  | 'I' => some .int
  | 'J' => some .long
  | 'F' => some .float
  | 'D' => some .double
  | 'V' => some .void
  | 'L' => some .reference
  | _ => none

namespace FieldWorld

variable (W : FieldWorld)

/-- `lookup_class` where the class could not be loaded; a missing `ClassNotFoundException` aborts
the machine. -/
def classNotFound (name : List Char) (raise : Bool) (e : Option ResolutionError) :
    Option (Resolved ClassRef) :=
  if !raise then some ⟨none, e⟩
  else if name = "java/lang/ClassNotFoundException".toList then none
  else some ⟨none, e.or (some (.classNotFound name))⟩

/-- The end of `lookup_class`, with the class that loading has found and the pending exception. -/
def finishLookup (dims : ℕ) (name : List Char) (raise : Bool)
    (r : Option ℕ × Option ResolutionError) : Option (Resolved ClassRef) :=
  match r.1 with
  | some c => some ⟨some ⟨c, dims⟩, r.2⟩
  | none => classNotFound name raise r.2

/-- `lookup_class`; `none` where it does not return. -/
def lookupClass (L : ClassLoader) (name : List Char) (raise : Bool) : Option (Resolved ClassRef) :=
  let dims := (name.takeWhile (· = '[')).length
  let name := name.drop dims
  if dims ≠ 0 ∧ name.head? ≠ some 'L' then
    (name.head?.bind readTypeKindChar).map fun k => ⟨some ⟨W.primitiveClass k, dims⟩, none⟩
  else
    -- strip L and ;
    let name := if dims ≠ 0 then (name.drop 1).dropLast else name
    match L.initiating name with
    | some c => some ⟨some ⟨c, dims⟩, none⟩
    | none =>
        if L.isBootstrap then finishLookup dims name raise (L.loadFromFs name)
        else if L.makesString name then
          let r := L.loadClass name
          finishLookup dims name raise (if r.2 = none then r.1 else none, r.2)
        else some ⟨none, some (.linkage .outOfMemoryError)⟩

/-- `load_class_of_field_descriptor`, whose lookups do not ask for an exception. -/
def loadClassOfFieldDescriptor (L : ClassLoader) (descriptor : List Char) :
    Option (Resolved ClassRef) :=
  match descriptor with
  | [] => none
  | 'L' :: rest => W.lookupClass L rest.dropLast false
  | '[' :: rest => W.lookupClass L ('[' :: rest) false
  | c :: _ => (readTypeKindChar c).map fun k => ⟨some ⟨W.primitiveClass k, 0⟩, none⟩

end FieldWorld

/-- `cp_class_info`; `failure` is the `vm_object` of an entry without class. -/
structure ClassEntry where
  name : List Char
  classdesc : Option ClassRef
  failure : Option ResolutionError

/-- `cp_field_info` -/
structure FieldEntry where
  classInfo : ClassEntry
  name : List Char
  descriptor : List Char
  field : Option FieldDecl

/-- `cp_method_info` -/
structure MethodEntry where
  classInfo : ClassEntry
  name : String
  descriptor : String
  resolved : Option CpMethod

namespace FieldWorld

variable (W : FieldWorld)

def resolveClass (L : ClassLoader) (info : ClassEntry) : Option (Resolved ClassRef) :=
  match info.classdesc, info.failure with
  | some c, _ => some ⟨some c, none⟩
  | none, some e => some ⟨none, some e⟩
  | none, none => W.lookupClass L info.name true

/-- `field_lookup` with a bound on its recursion. -/
def fieldLookupAux : ℕ → ClassRef → List Char → List Char → Option FieldDecl
  | 0, _, _, _ => none
  | depth + 1, r, name, descriptor =>
      match W.superOf r with
      | none => none
      | some p =>
          ((if r.dims = 0 then W.fields r.base else []).find?
            fun f => f.name = name && f.descriptor = descriptor).or
          (((W.interfacesOf r).findSome? fun i => fieldLookupAux depth i name descriptor).or
            (fieldLookupAux depth p name descriptor))

def fieldLookup (r : ClassRef) (name descriptor : List Char) : Option FieldDecl :=
  W.fieldLookupAux (W.linkDepth r) r name descriptor

/-- `method_lookup` with `search_superinterfaces` and a bound on its recursion. -/
def methodLookupAux : ℕ → ClassRef → String → String → Bool → Option CpMethod
  | 0, _, _, _, _ => none
  | depth + 1, r, name, descriptor, superclasses =>
      (if superclasses then W.methodLookup r name descriptor
        else W.declared r name descriptor).or
      (((W.interfacesOf r).findSome? fun i => methodLookupAux depth i name descriptor false).or
        (if superclasses then
          (W.superOf r).bind fun p => methodLookupAux depth p name descriptor true
        else none))

/-- `method_lookup` in superclasses and superinterfaces. -/
def methodLookupAll (r : ClassRef) (name descriptor : String) : Option CpMethod :=
  W.methodLookupAux (W.linkDepth r) r name descriptor true

/-- `resolve_field` by thread `t`. -/
def resolveField (L : ClassLoader) (t : ℕ) (s : Vm) (info : FieldEntry) :
    Option (Resolved FieldDecl) :=
  match info.field with
  | some f => some ⟨some f, none⟩
  | none =>
      (W.resolveClass L info.classInfo).map fun r =>
        match r.target with
        | none => ⟨none, r.exception⟩
        | some c =>
            let l := linkClass W.toHierarchy t s c
            if l.1 ≠ 0 then ⟨none, (l.2.currentException t).map .linkage⟩
            else ⟨W.fieldLookup c info.name info.descriptor, r.exception⟩

/-- The message of `resolve_methodref` for a method that is not found. -/
def methodComplaint (info : MethodEntry) : List Char :=
  "Could not find method ".toList ++ info.name.toList ++ " with descriptor ".toList ++
    info.descriptor.toList ++ " on class ".toList ++ info.classInfo.name

/-- `resolve_methodref`, given the exception that `initialize_class` leaves pending. -/
def resolveMethodref (L : ClassLoader) (initialized : ClassRef → Option ResolutionError)
    (info : MethodEntry) : Option (Resolved CpMethod) :=
  match info.resolved with
  | some m => some ⟨some m, none⟩
  | none =>
      (W.resolveClass L info.classInfo).map fun r =>
        match r.target with
        | none => ⟨none, r.exception⟩
        | some c =>
            match initialized c with
            | some e => ⟨none, some e⟩
            | none =>
                match W.methodLookupAll c info.name info.descriptor with
                | some m => ⟨some m, none⟩
                | none => ⟨none, some (.incompatibleClassChange (methodComplaint info))⟩

end FieldWorld

end TraceJvm
