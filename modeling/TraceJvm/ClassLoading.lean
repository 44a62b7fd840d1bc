import TraceJvm.Resolvers
import TraceJvm.Lib.OrderedMap
import TraceJvm.Lib.Transition

/-! `define_class` and `lookup_class` as a machine: every thread has a stack of native calls, the
`loadClass` methods of user defined loaders run between them and may do anything Java code can, and
threads change where a lookup waits asynchronously. -/
namespace TraceJvm

abbrev ClassName := List Char

/-- What `define_class` reads of a class file. A supertype is the index of its constant pool entry
and the name there. -/
structure ClassBytes where
  /-- `parse_classfile` succeeds. -/
  wellFormed : Bool
  name : ClassName
  superClass : Option (ℕ × ClassName)
  interfaces : List (ℕ × ClassName)
  /-- The classes of the `PermittedSubclasses` attribute, if there is one. -/
  permittedSubclasses : Option (List ClassName)

def ClassBytes.supertypes (b : ClassBytes) : List (ℕ × ClassName) :=
  b.superClass.toList ++ b.interfaces

/-- The class loaders, numbered as they are made, with the bootstrap loader first. The parent of a
loader exists before the loader. -/
structure LoaderGraph where
  parent : ℕ → ℕ
  parent_lt : ∀ l, l ≠ 0 → parent l < l
  /-- The class files that `lookup_classpath` finds. -/
  classpath : List (ClassName × ClassBytes)

inductive ClassBase where
  | primitive (k : TypeKind)
  | defined (id : ℕ)
  deriving DecidableEq

/-- A `classdesc`: the class with `dims` more dimensions than its base. The array classes of a class
are made once, in its `array_type`. -/
structure RuntimeClass where
  base : ClassBase
  dims : ℕ
  deriving DecidableEq

/-- `get_or_create_array_classdesc`, taken `n` times. -/
def RuntimeClass.addDims (c : RuntimeClass) (n : ℕ) : RuntimeClass := ⟨c.base, c.dims + n⟩

/-- A class that `define_class` has made, with the name under which it was defined. -/
structure DefinedClass where
  key : ClassName
  loader : ℕ
  bytes : ClassBytes

inductive LoadError where
  | linkageError
  | classFormatError
  | classCircularityError (name : ClassName)
  | incompatibleClassChange (name super : ClassName)
  | classNotFound (name : ClassName)
  | outOfMemory
  /-- Thrown by Java code. -/
  | thrown

/-- A call of `lookup_class` that loads `elem`. `suspended` says that the call has given up the
native stack since it began, and with it the locals `dimensions` and `class`. -/
structure LookupFrame where
  full : ClassName
  elem : ClassName
  dims : ℕ
  loader : ℕ
  raise : Bool
  suspended : Bool

/-- A call of `define_class`. `rest` are the supertypes to resolve, `resolved` the constant pool
entries that hold their class. -/
structure DefineFrame where
  loader : ℕ
  key : ClassName
  bytes : ClassBytes
  rest : List (ℕ × ClassName)
  resolved : List ℕ

inductive LoadFrame where
  | lookup (f : LookupFrame)
  | define (f : DefineFrame)

/-- A thread inside the loading routines. `result` is what a call has returned to the native
caller on top of the stack. -/
structure LoaderThread where
  stack : List LoadFrame
  result : Option (Option RuntimeClass)
  exception : Option LoadError

inductive LookupResult where
  | exception
  | null
  | found (c : RuntimeClass)

def LookupResult.toClass : LookupResult → Option RuntimeClass
  | .found c => some c
  | _ => none

/-- A finished lookup. `uninterrupted` is the result with the locals as they were before a
suspension. -/
structure LookupAnswer where
  name : ClassName
  loader : ℕ
  result : LookupResult
  uninterrupted : LookupResult

/-- A look into the set of inchoate classes for a supertype of the definition on top of `stack`. -/
structure CircularityCheck where
  loader : ℕ
  name : ClassName
  stack : List LoadFrame
  raised : Bool

/-- The loading state of the virtual machine. `answers` and `checks` are a record that no routine
reads. -/
structure LoaderVm where
  classes : List DefinedClass
  initiating : ℕ → ClassName → Option RuntimeClass
  loaded : ℕ → ClassName → Option ℕ
  inchoate : ClassName → Bool
  current : LoaderThread
  others : List LoaderThread
  crashed : Bool
  answers : List LookupAnswer
  checks : List CircularityCheck

inductive ElementName where
  | primitive (k : TypeKind)
  | named (n : ClassName)

/-- The beginning of `lookup_class`: the dimensions of a name and its element. `none` is a failing
check. -/
def parseName (name : ClassName) : Option (ℕ × ElementName) :=
  let dims := (name.takeWhile (· = '[')).length
  let elem := name.drop dims
  if 255 ≤ dims ∨ elem = [] then none
  else if dims = 0 then some (0, .named elem)
  else if elem.head? = some 'L' then
    if elem.length < 2 then none else some (dims, .named (elem.drop 1).dropLast)
  else (elem.head?.bind readTypeKindChar).map fun k => (dims, .primitive k)

def LoaderThread.idle : LoaderThread := ⟨[], none, none⟩

/-- Java code runs in the thread: its own, or a `loadClass` that a lookup has called. -/
def LoaderThread.inJava (t : LoaderThread) : Bool :=
  match t.stack with
  | [] => true
  | .lookup f :: _ => f.loader ≠ 0
  | .define _ :: _ => false

/-- Only the lookups of `load_class_of_field_descriptor`, which do not ask for an exception, are
awaited; every other call needs its result at once. -/
def LoadFrame.awaited : LoadFrame → Bool
  | .lookup f => !f.raise
  | .define _ => false

def LoadFrame.suspend : LoadFrame → LoadFrame
  | .lookup f => .lookup { f with suspended := true }
  | .define f => .define f

namespace LoaderVm

def start : LoaderVm where
  classes := []
  initiating := fun _ _ => none
  loaded := fun _ _ => none
  inchoate := fun _ => false
  current := .idle
  others := []
  crashed := false
  answers := []
  checks := []

def crash (s : LoaderVm) : LoaderVm := { s with crashed := true }

def raise (s : LoaderVm) (e : LoadError) : LoaderVm :=
  { s with current := { s.current with exception := some e } }

def push (s : LoaderVm) (f : LoadFrame) : LoaderVm :=
  { s with current := { s.current with stack := f :: s.current.stack, result := none } }

def pop (s : LoaderVm) : LoaderVm :=
  { s with current := { s.current with stack := s.current.stack.tail } }

/-- Returns from a call whose frame has been left: a native caller waits for the result. -/
def deliver (s : LoaderVm) (r : Option RuntimeClass) : LoaderVm :=
  { s with current := { s.current with result := if s.current.inJava then none else some r } }

def answer (s : LoaderVm) (a : LookupAnswer) : LoaderVm :=
  { s.deliver a.result.toClass with answers := a :: s.answers }

def loaderOf (s : LoaderVm) (c : RuntimeClass) : ℕ :=
  match c.base with
  | .primitive _ => 0
  | .defined id => ((s.classes[id]?).map (·.loader)).getD 0

/-- `lookup_class` up to the point where it loads the class. `memory` says that the string with the
name can be allocated. -/
def lookupClass (s : LoaderVm) (full : ClassName) (loader : ℕ) (raise memory : Bool) : LoaderVm :=
  match parseName full with
  | none => s.crash
  | some (dims, .primitive k) =>
      let r := LookupResult.found ⟨.primitive k, dims⟩
      s.answer ⟨full, loader, r, r⟩
  | some (dims, .named elem) =>
      match s.initiating loader elem with
      | some c =>
          let r := LookupResult.found (c.addDims dims)
          s.answer ⟨full, loader, r, r⟩
      | none =>
          let s := { s with inchoate := Function.update s.inchoate elem true }
          if loader = 0 ∨ memory then s.push (.lookup ⟨full, elem, dims, loader, raise, false⟩)
          else (s.raise .outOfMemory).answer ⟨full, loader, .exception, .exception⟩

variable {dims loader : ℕ} {full : ClassName} {s : LoaderVm}

theorem lookupClass_recorded {elem : ClassName}
    {c : RuntimeClass} (hparse : parseName full = some (dims, .named elem))
    (hc : s.initiating loader elem = some c) (raise memory : Bool) :
    s.lookupClass full loader raise memory =
      s.answer ⟨full, loader, .found (c.addDims dims), .found (c.addDims dims)⟩ := by
  simp only [lookupClass, hparse, hc]

theorem lookupClass_primitive {k : TypeKind}
    (hparse : parseName full = some (dims, .primitive k)) (raise memory : Bool) :
    s.lookupClass full loader raise memory =
      s.answer ⟨full, loader, .found ⟨.primitive k, dims⟩, .found ⟨.primitive k, dims⟩⟩ := by
  simp only [lookupClass, hparse]

theorem lookupClass_loads {elem : ClassName}
    (hparse : parseName full = some (dims, .named elem)) (hc : s.initiating loader elem = none)
    (raise memory : Bool) : s.lookupClass full loader raise memory =
      if loader = 0 ∨ memory = true then
        { s with inchoate := Function.update s.inchoate elem true }.push
          (.lookup ⟨full, elem, dims, loader, raise, false⟩)
      else
        ({ s with inchoate := Function.update s.inchoate elem true }.raise .outOfMemory).answer
          ⟨full, loader, .exception, .exception⟩ := by
  simp only [lookupClass, hparse, hc]

/-- `define_class` up to the resolution of the supertypes. -/
def defineClass (s : LoaderVm) (loader : ℕ) (key : ClassName) (bytes : ClassBytes) : LoaderVm :=
  if (s.initiating loader key).isSome then (s.raise .linkageError).deliver none
  else if bytes.wellFormed then s.push (.define ⟨loader, key, bytes, bytes.supertypes, []⟩)
  else (s.raise .classFormatError).deliver none

/-- `check_permitted_subclasses` -/
def permits (s : LoaderVm) (name : ClassName) (super : RuntimeClass) : Bool :=
  match super with
  | ⟨.defined id, 0⟩ =>
      match s.classes[id]?.bind (·.bytes.permittedSubclasses) with
      | some names => name ∈ names
      | none => true
  | _ => true

def failDefine (s : LoaderVm) (e : Option LoadError) : LoaderVm :=
  { s.pop with current := { s.pop.current with exception := e } }.deliver none

def resolveSupertype (s : LoaderVm) (f : DefineFrame) (i : ℕ) (n : ClassName)
    (more : List (ℕ × ClassName)) (memory : Bool) : LoaderVm :=
  let s := { s with checks := ⟨f.loader, n, s.current.stack, s.inchoate n⟩ :: s.checks }
  if s.inchoate n then s.failDefine (some (.classCircularityError f.bytes.name))
  else if i ∈ f.resolved then s.pop.push (.define { f with rest := more })
  else s.lookupClass n f.loader true memory

/-- Goes on with the definition on top of the stack when a supertype has been looked up. -/
def supertypeResolved (s : LoaderVm) (f : DefineFrame) (i : ℕ) (n : ClassName)
    (more : List (ℕ × ClassName)) : Option RuntimeClass → LoaderVm
  | none => s.failDefine s.current.exception
  | some c =>
      if s.permits f.bytes.name c then
        s.pop.push (.define { f with rest := more, resolved := i :: f.resolved })
      else s.failDefine (some (.incompatibleClassChange f.bytes.name n))

/-- `hash_table_insert` into the table of a loader. -/
def enter {α : Type} (table : ℕ → ClassName → Option α) (loader : ℕ) (key : ClassName) (v : α) :
    ℕ → ClassName → Option α :=
  fun l k => if l = loader ∧ k = key then some v else table l k

/-- The end of `define_class`: the class is entered into the tables of its loader. -/
def finishDefine (s : LoaderVm) (f : DefineFrame) : LoaderVm :=
  let c : RuntimeClass := ⟨.defined s.classes.length, 0⟩
  let d : DefinedClass := ⟨f.key, f.loader, f.bytes⟩
  { s.pop with
    classes := s.classes ++ [d]
    loaded := enter s.loaded f.loader f.key s.classes.length
    initiating := enter s.initiating f.loader f.key c }.deliver (some c)

end LoaderVm

namespace LoaderGraph

variable (W : LoaderGraph)

/-- The loaders that the marking loop of `lookup_class` passes from `curr` on until it meets `home`.
Where it does not, it goes on to the parent of the bootstrap loader, which is null. -/
def chainTo (home : ℕ) : ℕ → ℕ → Option (List ℕ)
  | 0, curr => if curr = home then some [] else none
  | d + 1, curr =>
      if curr = home then some []
      else if curr = 0 then none
      else (chainTo home d (W.parent curr)).map (curr :: ·)

/-- Marks the loaders from `curr` to the defining loader of `c` as initiating loaders of `c`. -/
def markInitiating (s : LoaderVm) (elem : ClassName) (c : RuntimeClass) (curr : ℕ) :
    Option LoaderVm :=
  (W.chainTo (s.loaderOf c) curr curr).map fun chain =>
    { s with initiating := fun l n =>
        if l ∈ chain ∧ n = elem then some c else s.initiating l n }

end LoaderGraph

/-- What `lookup_class` returns without a class. -/
def missingResult (raise : Bool) (e : Option LoadError) : LookupResult :=
  if raise ∨ e.isSome then .exception else .null

def classNotFoundException : ClassName := "java/lang/ClassNotFoundException".toList

def lookupResult (raise : Bool) (e : Option LoadError) (cls : Option RuntimeClass) (dims : ℕ) :
    LookupResult :=
  match cls with
  | some c => .found (c.addDims dims)
  | none => missingResult raise e

namespace LoaderGraph

variable (W : LoaderGraph)

/-- `lookup_class` from the point where the class has been loaded or not, with the locals `class` and
`dimensions` as they are now and as they were before a suspension. -/
def finishLookup (s : LoaderVm) (f : LookupFrame) (cls kept : Option RuntimeClass) (dims : ℕ) :
    LoaderVm :=
  let s := { s.pop with inchoate := Function.update s.inchoate f.elem false }
  let a : LookupAnswer := ⟨f.full, f.loader, lookupResult f.raise s.current.exception cls dims,
    lookupResult f.raise s.current.exception kept f.dims⟩
  match cls with
  | some c =>
      match W.markInitiating s f.elem c f.loader with
      | some s => s.answer a
      | none => s.crash
  | none =>
      if f.raise = false then s.answer a
      else if f.elem = classNotFoundException then s.crash
      else (s.raise (s.current.exception.getD (.classNotFound f.elem))).answer a

def advance (s : LoaderVm) (memory : Bool) : Option LoaderVm :=
  match s.current.stack, s.current.result with
  | .define f :: _, none =>
      match f.rest with
      | [] => some (s.finishDefine f)
      | (i, n) :: more => some (s.resolveSupertype f i n more memory)
  | .define f :: _, some r =>
      match f.rest with
      | [] => none
      | (i, n) :: more => some (s.supertypeResolved f i n more r)
  | .lookup f :: _, none =>
      if f.loader ≠ 0 then none
      else match OrderedMap.get W.classpath f.elem with
        | none => some (W.finishLookup s f none none f.dims)
        | some bytes => some (s.defineClass 0 f.elem bytes)
  | .lookup f :: _, some r =>
      if f.loader ≠ 0 then none else some (W.finishLookup s f r r f.dims)
  | [], _ => none

end LoaderGraph

/-- How a `loadClass` ends. -/
inductive LoadOutcome where
  | threw
  | returned (mirror : Option RuntimeClass)

inductive LoadEvent where
  /-- Java code of the current thread needs a class. -/
  | lookup (full : ClassName) (loader : ℕ) (raise memory : Bool)
  /-- Java code of the current thread calls `defineClass`. -/
  | define (loader : ℕ) (key : ClassName) (bytes : ClassBytes)
  | advance (memory : Bool)
  /-- The `loadClass` on top of the stack ends. After a suspension the locals `dimensions` and
  `class` hold any values. -/
  | loadReturns (outcome : LoadOutcome) (dims : ℕ) (cls : Option RuntimeClass)
  | catchException
  | spawn
  /-- The current thread waits, and another one goes on. -/
  | switch (i : ℕ)

def LoaderVm.exists (s : LoaderVm) (c : RuntimeClass) : Bool :=
  match c.base with
  | .primitive _ => true
  | .defined id => id < s.classes.length

namespace LoaderGraph

variable (W : LoaderGraph)

/-- Ends the `loadClass` that the lookup `f` has called. -/
def loadReturns (s : LoaderVm) (f : LookupFrame) (outcome : LoadOutcome) (dims : ℕ)
    (cls : Option RuntimeClass) : Option LoaderVm :=
  let dims := if f.suspended then dims else f.dims
  let cls := if f.suspended then cls else none
  match outcome with
  | .threw =>
      some (W.finishLookup (s.raise (s.current.exception.getD .thrown)) f cls none dims)
  | .returned mirror =>
      if s.current.exception.isSome then none
      else if mirror.all s.exists then some (W.finishLookup s f mirror mirror dims)
      else none

def loadStep (s : LoaderVm) (e : LoadEvent) : Option LoaderVm :=
  if s.crashed then none
  else match e with
    | .lookup full loader raise memory =>
        if s.current.inJava ∧ s.current.exception = none then
          some (s.lookupClass full loader raise memory)
        else none
    | .define loader key bytes =>
        if s.current.inJava ∧ s.current.exception = none then
          some (s.defineClass loader key bytes)
        else none
    | .advance memory => W.advance s memory
    | .loadReturns outcome dims cls =>
        match s.current.stack with
        | .lookup f :: _ => if f.loader = 0 then none else W.loadReturns s f outcome dims cls
        | _ => none
    | .catchException =>
        if s.current.inJava then
          some { s with current := { s.current with exception := none } }
        else none
    | .spawn => some { s with others := s.others ++ [.idle] }
    | .switch i =>
        match s.others[i]? with
        | none => none
        | some t =>
            if s.current.stack.all LoadFrame.awaited ∧ s.current.inJava then
              some { s with
                current := t
                others := s.others.set i
                  { s.current with stack := s.current.stack.map LoadFrame.suspend } }
            else none

end LoaderGraph

end TraceJvm
