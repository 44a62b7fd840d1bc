import TraceJvm.Classfile
import TraceJvm.ClassInit
import TraceJvm.FunctionTables

/-! Linking with the tables that `instanceof` reads: the display of superclasses and the list of
implemented interfaces. The machine is the one of `initialize_class` and `link_class` with the
descriptors' tables added to its state. -/
namespace TraceJvm

open Function

structure TypeWorld extends ClassWorld where
  primitiveKind : ℕ → TypeKind
  primitive_unique : ∀ {a b : ℕ}, isPrimitive a → isPrimitive b →
    primitiveKind a = primitiveKind b → a = b

/-- Class descriptors with their tables. `setUp` records that `set_up_function_tables` has run
and is read by no transition. -/
structure TypeVm where
  vm : Vm
  /-- `hierarchy`; its length is `hierarchy_len`. -/
  hierarchy : ClassRef → List ClassRef
  tables : ClassRef → FunctionTables
  setUp : ClassRef → Bool

namespace TypeVm

def mapVm (s : TypeVm) (f : Vm → Vm) : TypeVm := { s with vm := f s.vm }

/-- `itables.interfaces` -/
def interfaces (s : TypeVm) (r : ClassRef) : List ClassRef :=
  (s.tables r).itables.map Itable.interface

def displayOf (W : ClassWorld) (s : TypeVm) (r : ClassRef) : List ClassRef :=
  (match W.superOf r with
    | some p => s.hierarchy p
    | none => []) ++ [r]

/-- `setup_super_hierarchy`; its assertions are compiled out of release builds. -/
def setupSuperHierarchy (W : ClassWorld) (s : TypeVm) (r : ClassRef) : TypeVm :=
  { s with hierarchy := update s.hierarchy r (displayOf W s r) }

def setUpFunctionTables (W : ClassWorld) (s : TypeVm) (r : ClassRef) : TypeVm :=
  { s with
    tables := update s.tables r (W.setUpFunctionTables s.tables r)
    setUp := update s.setUp r true }

end TypeVm

def linkTypes (link : TypeVm → ClassRef → ℤ × TypeVm) : TypeVm → List ClassRef → ℤ × TypeVm
  | s, [] => (0, s)
  | s, p :: ps =>
      let r := link s p
      if r.1 ≠ 0 then r else linkTypes link r.2 ps

/-- `link_array_class` -/
def linkArrayType (W : ClassWorld) (link : TypeVm → ClassRef → ℤ × TypeVm) (s : TypeVm)
    (r : ClassRef) : ℤ × TypeVm :=
  if ClassState.linked.rank ≤ (s.vm.state r).rank then (0, s)
  else
    let s := s.mapVm fun v => v.setState r .linked
    let l := match W.baseComponent r with
      | none => (0, s)
      | some b =>
          let l := link s b
          let st := if l.1 ≠ 0 then ClassState.linkageError else .linked
          (l.1, l.2.mapVm fun v =>
            let v := v.setArrayStates b.base st
            if l.1 ≠ 0 then { v with failure := update v.failure r (some .link) } else v)
    (l.1, (l.2.setupSuperHierarchy W r).setUpFunctionTables W r)

/-- The body of `link_class` for a class in state `loaded`. -/
def linkLoadedType (W : ClassWorld) (t : ℕ) (link : TypeVm → ClassRef → ℤ × TypeVm) (s : TypeVm)
    (r : ClassRef) : ℤ × TypeVm :=
  let l := linkTypes link s (W.superOf r).toList
  if l.1 ≠ 0 then (l.1, l.2.mapVm fun v => v.recordLinkageError t r)
  else
    let l := linkTypes link (l.2.setupSuperHierarchy W r) (W.interfacesOf r)
    if l.1 ≠ 0 then (l.1, l.2.mapVm fun v => v.recordLinkageError t r)
    else if W.kind r ≠ .ordinary then linkArrayType W link l.2 r
    else
      let s := l.2.mapVm fun v => v.setState r .linked
      let s := if s.vm.arrayDims r.base = 0 then s else (linkArrayType W link s ⟨r.base, 1⟩).2
      if W.verifies r.base then (0, s.setUpFunctionTables W r)
      else (-1, s.mapVm fun v => (v.raise t .verifyError).recordLinkageError t r)

/-- `link_class` with a bound on the nesting of calls. -/
def linkTypeAux (W : ClassWorld) (t : ℕ) : ℕ → TypeVm → ClassRef → ℤ × TypeVm
  | 0, s, _ => (0, s)
  | depth + 1, s, r =>
      if s.vm.state r ≠ .loaded then (0, s) else linkLoadedType W t (linkTypeAux W t depth) s r

/-- `link_class` -/
def linkType (W : ClassWorld) (t : ℕ) (s : TypeVm) (r : ClassRef) : ℤ × TypeVm :=
  linkTypeAux W t (W.linkDepth r) s r

def TypeVm.freshArray (s : TypeVm) (a : ClassRef) : TypeVm where
  vm := s.vm.freshArray a
  hierarchy := update s.hierarchy a []
  tables := update s.tables a .empty
  setUp := update s.setUp a false

/-- `ordinary_array_classdesc` up to the linking of the new class. -/
def linkNewArrayType (W : ClassWorld) (s : TypeVm) (t : ℕ) (r : ClassRef) : TypeVm :=
  let s := s.freshArray r.array
  if ClassState.linked.rank ≤ (s.vm.state r).rank then (linkType W t s r.array).2 else s

def linkingOf (W : ClassWorld) (s : TypeVm) : InitEvent → TypeVm
  | .link t r => (linkType W t s r).2
  | .createArray t r => linkNewArrayType W s t r
  | .poll t _ =>
      match s.vm.calls t with
      | ⟨r, .enter, _⟩ :: _ =>
          if W.kind r ≠ .ordinaryArray ∧ s.vm.state r ≠ .initialized ∧
              s.vm.state r ≠ .linkageError ∧ (s.vm.state r).rank < ClassState.linked.rank then
            (linkType W t s r).2
          else s
      | _ => s
  | _ => s

def tableStep (W : ClassWorld) (s : TypeVm) (e : InitEvent) : Option TypeVm :=
  (initStep W.toHierarchy s.vm e).map fun vm => { linkingOf W s e with vm := vm }

namespace TypeWorld

variable (W : TypeWorld)

def oneFewerDim (r : ClassRef) : Option ClassRef :=
  match r.dims with
  | 0 => none
  | d + 1 => some ⟨r.base, d⟩

/-- `primitive_component`, which is zero, that is `TYPE_KIND_BOOLEAN`, where nothing is stored. -/
def primitiveComponent (r : ClassRef) : TypeKind :=
  if W.isPrimitive r.base then W.primitiveKind r.base else .boolean

/-- The loop of `instanceof` that removes the dimensions of the target. -/
def removeDims : ℕ → ClassRef → ClassRef → Option (ClassRef × ClassRef)
  | 0, o, target => some (o, target)
  | n + 1, o, target =>
      match oneFewerDim o, oneFewerDim target with
      | some o, some target => removeDims n o target
      | _, _ => none

def instanceofInterface (s : TypeVm) (o target : ClassRef) : Bool :=
  o = target || (s.interfaces o).contains target

/-- `instanceof_super`; a target without a display makes it read before the start of the
display of `o`. -/
def instanceofSuper (s : TypeVm) (o target : ClassRef) : Option Bool :=
  match (s.hierarchy target).length with
  | 0 => none
  | n + 1 => some (n < (s.hierarchy o).length && (s.hierarchy o)[n]? = some target)

/-- `instanceof`, from the point where the two can be compared as ordinary classes. -/
def instanceofObject (s : TypeVm) (o target : ClassRef) : Option Bool :=
  if W.interfaceFlag target then some (instanceofInterface s o target)
  else instanceofSuper s o target

/-- `instanceof`, without a result where it reads outside the display. -/
def instanceof (s : TypeVm) (o target : ClassRef) : Option Bool :=
  if o = target then some true
  else if W.kind target ≠ .ordinary then
    if W.kind o = .ordinary then some false
    else if W.kind o = .ordinaryArray then
      match removeDims target.dims o target with
      | none => some false
      | some (o, target) =>
          if W.kind o = .primitive ∨ W.kind target = .primitive then some false
          else W.instanceofObject s o target
    else some (target.dims = o.dims && W.primitiveComponent target = W.primitiveComponent o)
  else W.instanceofObject s o target

end TypeWorld

end TraceJvm
