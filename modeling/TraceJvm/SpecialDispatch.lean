import TraceJvm.InstanceOf
import TraceJvm.Resolvers

/-! Selection of the method of an `invokespecial`: the class in which `invokespecial_impl` begins to
search depends on the running method and on the class that declares the resolved method, that of the
specification on the resolved method and on the class that the reference names. -/
namespace TraceJvm

open List

namespace ClassWorld

variable (W : ClassWorld)

/-- `c != t && instanceof(c, t)` for a class `t`, where `c` has been linked. -/
def properSuperclass (c t : ClassRef) : Bool := c ≠ t && (W.chain c).contains t

def searchesSuper (method resolved : CpMethod) : Bool :=
  !method.isCtor && (!W.isInterface resolved.cls &&
    W.properSuperclass ⟨method.cls, 0⟩ ⟨resolved.cls, 0⟩)

def lookupOn (method resolved : CpMethod) : ClassRef :=
  if W.searchesSuper method resolved then
    (W.superOf ⟨method.cls, 0⟩).getD ⟨method.cls, 0⟩
  else ⟨resolved.cls, 0⟩

/-- `itable_lookup`, as far as the entry can be called. -/
def itableLookup (c interface : ClassRef) (index : ℕ) : Option CpMethod :=
  (W.itableEntry c interface index).bind fun e => if e.invalid then none else some e.method

/-- The candidate of `invokespecial_impl` for a resolved method, none where it raises an
`AbstractMethodError`. -/
def specialCandidate (method resolved : CpMethod) : Option CpMethod :=
  match W.methodLookup (W.lookupOn method resolved) resolved.name resolved.descriptor with
  | some candidate => if candidate.isAbstract then none else some candidate
  | none =>
      if W.isInterface resolved.cls then
        W.itableLookup (W.lookupOn method resolved) ⟨resolved.cls, 0⟩ (W.itableIndex resolved)
      else none

end ClassWorld

/-- How `invokespecial_impl` goes on after the method has been resolved. -/
inductive SpecialOutcome where
  | nullPointerException
  | abstractMethodError
  /-- The instruction becomes a `pop`. -/
  | nop
  | cached (m : CpMethod)
  deriving DecidableEq

/-- `invokespecial_impl` with the resolved method. -/
def invokespecialImpl (W : ClassWorld) (method resolved : CpMethod) (receiver : Option ℕ) :
    SpecialOutcome :=
  if receiver = none then .nullPointerException
  else
    match W.specialCandidate method resolved with
    | none => .abstractMethodError
    | some m =>
        if W.className m.cls = "java/lang/Object" ∧ m.name = "<init>" then .nop else .cached m

/-! ### The specification -/

namespace ClassWorld

variable (W : ClassWorld)

/-- The only maximally-specific method of the superinterfaces that is not abstract. -/
noncomputable def interfaceSelection (c : ClassRef) (i : MethodId) : Option CpMethod :=
  open Classical in
  if h : ∃ x, (W.MaximallySpecific c i x ∧ x.isAbstract = false) ∧
      ∀ y, W.MaximallySpecific c i y → y.isAbstract = false → y = x then some h.choose else none

/-- The lookup that begins at the direct superclass of the class: first in the superclasses, then
in the superinterfaces. -/
noncomputable def superSelection (c : ℕ) (resolved : CpMethod) : Option CpMethod :=
  (W.superOf ⟨c, 0⟩).bind fun p =>
    (W.methodLookup p resolved.name resolved.descriptor).or (W.interfaceSelection p resolved.id)

/-- The resolved method is no instance initialization method, and the reference names a proper
superclass of the current class. -/
def callsSuper (method : CpMethod) (named : ClassRef) (resolved : CpMethod) : Bool :=
  !resolved.isCtor && (!W.interfaceFlag named && W.properSuperclass ⟨method.cls, 0⟩ named)

noncomputable def jvmsSpecial (method : CpMethod) (named : ClassRef) (resolved : CpMethod) :
    Option CpMethod :=
  if W.callsSuper method named resolved then W.superSelection method.cls resolved
  else some resolved

end ClassWorld

/-- What is left of a selected method: an abstract or missing one gives an `AbstractMethodError`. -/
def concrete (m : Option CpMethod) : Option CpMethod := m.filter fun m => !m.isAbstract

theorem concrete_some (m : CpMethod) :
    concrete (some m) = if m.isAbstract then none else some m := by
  cases h : m.isAbstract <;> simp [concrete, Option.filter, h]

def SpecialOutcome.ofSelected (W : ClassWorld) (selected : Option CpMethod) : SpecialOutcome :=
  match concrete selected with
  | none => .abstractMethodError
  | some m => if W.className m.cls = "java/lang/Object" ∧ m.name = "<init>" then .nop else .cached m

/-! ### Comparison -/

namespace ClassWorld

variable {W : ClassWorld}

variable {name descriptor : String}

theorem declared_of_methodLookup {c : ClassRef} {m : CpMethod}
    (h : W.methodLookup c name descriptor = some m) :
    W.declared ⟨m.cls, 0⟩ name descriptor = some m := by
  rw [methodLookup_eq] at h
  obtain ⟨k, -, hk⟩ := exists_of_findSome?_eq_some h
  rwa [← methodsOf_cls (mem_of_find?_eq_some hk)]

theorem declared_of_methodLookupAux {F : FieldWorld} {depth : ℕ} {r : ClassRef}
    {superclasses : Bool} {m : CpMethod}
    (h : F.methodLookupAux depth r name descriptor superclasses = some m) :
    F.declared ⟨m.cls, 0⟩ name descriptor = some m := by
  induction depth generalizing r superclasses with
  | zero => cases h
  | succ depth ih =>
    simp only [FieldWorld.methodLookupAux, Option.or_eq_some_iff] at h
    rcases h with h | ⟨-, h | ⟨-, h⟩⟩
    · cases superclasses with
      | true => exact declared_of_methodLookup h
      | false => rwa [← methodsOf_cls (mem_of_find?_eq_some h)]
    · obtain ⟨i, -, hi⟩ := exists_of_findSome?_eq_some h
      exact ih hi
    · cases superclasses with
      | true =>
        obtain ⟨p, -, hp⟩ := Option.bind_eq_some_iff.mp h
        exact ih hp
      | false => cases h

/-- A search in the class of a resolved method finds the method. -/
theorem methodLookup_own (hW : W.WellFormed) {m : CpMethod}
    (h : W.declared ⟨m.cls, 0⟩ name descriptor = some m) :
    W.methodLookup ⟨m.cls, 0⟩ m.name m.descriptor = some m := by
  have hown : W.declared ⟨m.cls, 0⟩ m.name m.descriptor = some m := by
    unfold declared at h ⊢
    obtain ⟨hm, before, after, hlist, hbefore⟩ := find?_eq_some_iff_append.mp h
    apply find?_eq_some_iff_append.mpr
    refine ⟨by simp [CpMethod.candidateMatches], before, after, hlist, ?_⟩
    intro x hx
    have hno := hbefore x hx
    simp only [CpMethod.candidateMatches, Bool.not_eq_true', decide_eq_false_iff_not,
      decide_eq_true_eq] at hm hno ⊢
    rintro ⟨hname, hpoly | hdesc⟩
    · exact hno ⟨hname.trans hm.1, .inl hpoly⟩
    · have hmem : x ∈ W.methods m.cls := by
        have : x ∈ W.methodsOf ⟨m.cls, 0⟩ := by
          rw [hlist]
          exact mem_append_left _ hx
        simpa [methodsOf] using this
      have hmem' : m ∈ W.methods m.cls := by
        have : m ∈ W.methodsOf ⟨m.cls, 0⟩ := by
          rw [hlist]
          simp
        simpa [methodsOf] using this
      have heq : x = m := hW.unique hmem hmem' (by simp [CpMethod.id, hname, hdesc])
      rw [heq] at hno
      exact hno hm
  rw [methodLookup_eq, chain_eq, findSome?_cons, hown]

theorem methodLookup_isSome {p : ClassRef} {m : CpMethod} (hp : W.Subclass p ⟨m.cls, 0⟩)
    (hown : W.methodLookup ⟨m.cls, 0⟩ m.name m.descriptor = some m) :
    ∃ x, W.methodLookup p m.name m.descriptor = some x := by
  rw [← Option.isSome_iff_exists, methodLookup_eq, findSome?_isSome_iff]
  rw [methodLookup_eq] at hown
  obtain ⟨k, hk, hm⟩ := exists_of_findSome?_eq_some hown
  exact ⟨k, mem_chain.mpr (hp.trans (mem_chain.mp hk)), by rw [hm]; rfl⟩

theorem superOf_of_properSuperclass {c t : ClassRef} (h : W.properSuperclass c t) :
    ∃ p, W.superOf c = some p ∧ W.Subclass p t := by
  simp only [properSuperclass, Bool.and_eq_true, decide_eq_true_eq, contains_iff_mem] at h
  obtain ⟨hne, hmem⟩ := h
  rcases (mem_chain.mp hmem).cases_head with rfl | ⟨p, hp, hsub⟩
  · exact absurd rfl hne
  · exact ⟨p, hp, hsub⟩

/-- The candidate is the one of the specification up to the class in which the search begins. -/
theorem specialCandidate_eq (hW : W.WellFormed) {method resolved : CpMethod}
    (hres : W.declared ⟨resolved.cls, 0⟩ name descriptor = some resolved) :
    W.specialCandidate method resolved =
      concrete (if W.searchesSuper method resolved then W.superSelection method.cls resolved
        else some resolved) := by
  have hown := methodLookup_own hW hres
  unfold specialCandidate lookupOn
  cases hsearch : W.searchesSuper method resolved with
  | true =>
    simp only [searchesSuper, Bool.and_eq_true] at hsearch
    obtain ⟨p, hp, hsub⟩ := superOf_of_properSuperclass hsearch.2.2
    obtain ⟨x, hx⟩ := methodLookup_isSome hsub hown
    have hsel : W.superSelection method.cls resolved = some x := by
      simp [superSelection, hp, hx]
    simp only [if_true, hp, Option.getD_some, hx, hsel, concrete_some]
  | false =>
    simp only [Bool.false_eq_true, if_false, hown, concrete_some]

end ClassWorld

/-- `invokespecial_impl` selects the method of the specification exactly where both begin their
search alike or the search from the superclass leads to the resolved method. -/
theorem invokespecial_selects_iff (W : FieldWorld) (hW : W.toClassWorld.WellFormed)
    {named : ClassRef} {name descriptor : String} {resolved : CpMethod}
    (hres : W.methodLookupAll named name descriptor = some resolved) (method : CpMethod)
    (receiver : ℕ) :
    invokespecialImpl W.toClassWorld method resolved (some receiver) =
        .ofSelected W.toClassWorld (W.jvmsSpecial method named resolved) ↔
      W.searchesSuper method resolved = W.callsSuper method named resolved ∨
        SpecialOutcome.ofSelected W.toClassWorld (W.superSelection method.cls resolved) =
          .ofSelected W.toClassWorld (some resolved) := by
  have himpl : invokespecialImpl W.toClassWorld method resolved (some receiver) =
      .ofSelected W.toClassWorld (if W.searchesSuper method resolved then
        W.superSelection method.cls resolved else some resolved) := by
    rw [invokespecialImpl, if_neg (Option.some_ne_none receiver),
      ClassWorld.specialCandidate_eq hW (ClassWorld.declared_of_methodLookupAux hres),
      SpecialOutcome.ofSelected]
  rw [himpl]
  unfold ClassWorld.jvmsSpecial
  cases hcode : W.searchesSuper method resolved with
  | true =>
    cases hspec : W.callsSuper method named resolved with
    | true => simp
    | false => simp
  | false =>
    cases hspec : W.callsSuper method named resolved with
    | true => simpa using eq_comm
    | false => simp

/-- A constructor and a method of `A` or `B`. -/
def constructorOf (cls : ℕ) : CpMethod :=
  ⟨cls, 0, "<init>", "()V", true, false, false, false, false, false⟩

def greetingOf (cls : ℕ) : CpMethod :=
  ⟨cls, 1, "greet", "()V", true, false, false, false, false, false⟩

/-- A method of `C` that is no constructor. -/
def runnerOf : CpMethod := ⟨5, 0, "run", "()V", true, false, false, false, false, false⟩

/-- `class A`, `class B extends A` and `class C extends B` with these methods. -/
def constructorClasses : FieldWorld where
  isPrimitive _ := false
  superClass
    | 0 => none
    | 4 => some 3
    | 5 => some 4
    | _ => some 0
  interfaces _ := []
  hasClinit _ := false
  verifies _ := true
  object := 0
  cloneable := 1
  serializable := 2
  super_lt := by
    intro c p h
    split at h <;> cases h
    · decide
    · decide
    · rename_i hc _ _
      exact Nat.pos_of_ne_zero hc
  interfaces_lt := Hierarchy.lt_of_mem_nil
  className
    | 0 => "java/lang/Object"
    | 3 => "A"
    | 4 => "B"
    | _ => "C"
  loader _ := 0
  isInterface c := c = 1 ∨ c = 2
  methods
    | 3 => [constructorOf 3, greetingOf 3]
    | 4 => [constructorOf 4, greetingOf 4]
    | 5 => [runnerOf]
    | _ => []
  my_class := by
    intro c m h
    split at h <;> simp at h
    · rcases h with rfl | rfl <;> rfl
    · rcases h with rfl | rfl <;> rfl
    · rw [h]
      rfl
  my_index := by
    intro c i m h
    split at h <;> rcases i with _ | _ | i <;> simp at h <;> rw [← h] <;> rfl
  fields _ := []
  primitiveClass _ := 0

theorem constructorClasses_wellFormed : constructorClasses.toClassWorld.WellFormed where
  root := by
    rintro ⟨c, d⟩ h
    unfold ClassWorld.superOf at h
    split at h
    · rename_i h0
      obtain rfl : d = 0 := h0
      rcases c with _ | _ | _ | _ | _ | _ | c <;> first | rfl | cases h
    · cases h
  interfaceSuper := by
    intro c h
    have hc : c = 1 ∨ c = 2 := by simpa [constructorClasses] using h
    rcases hc with rfl | rfl <;> rfl
  objectInterfaces := rfl
  interfaces_ := by
    rintro ⟨c, d⟩ p h
    cases d with
    | zero => cases h
    | succ d =>
      have hp : p = ⟨1, 0⟩ ∨ p = ⟨2, 0⟩ := by
        simpa [ClassWorld.interfacesOf, constructorClasses] using h
      rcases hp with rfl | rfl <;> rfl
  unique := by
    intro c x y hx hy h
    rcases c with _ | _ | _ | _ | _ | _ | c
    all_goals
      simp [constructorClasses] at hx hy
    · rcases hx with rfl | rfl <;> rcases hy with rfl | rfl <;>
        first | rfl | exact absurd (congrArg MethodId.name h) (by decide)
    · rcases hx with rfl | rfl <;> rcases hy with rfl | rfl <;>
        first | rfl | exact absurd (congrArg MethodId.name h) (by decide)
    · rw [hx, hy]

/-- `super.greet()` in `C`. -/
theorem invokespecial_selects_iff_superCall :
    constructorClasses.methodLookupAll ⟨4, 0⟩ "greet" "()V" = some (greetingOf 4) ∧
      invokespecialImpl constructorClasses.toClassWorld runnerOf (greetingOf 4) (some 0) =
        .cached (greetingOf 4) ∧
      invokespecialImpl constructorClasses.toClassWorld runnerOf (greetingOf 4) (some 0) =
        .ofSelected constructorClasses.toClassWorld
          (constructorClasses.jvmsSpecial runnerOf ⟨4, 0⟩ (greetingOf 4)) := by
  have hres : constructorClasses.methodLookupAll ⟨4, 0⟩ "greet" "()V" = some (greetingOf 4) := by
    decide +kernel
  refine ⟨hres, by decide +kernel, ?_⟩
  exact (invokespecial_selects_iff constructorClasses constructorClasses_wellFormed hres runnerOf 0).mpr
    (.inl (by decide +kernel))

/-- `new A()` in a method of `C` runs the constructor of `B`. -/
theorem invokespecial_wrongConstructor :
    constructorClasses.toClassWorld.WellFormed ∧
      constructorClasses.methodLookupAll ⟨3, 0⟩ "<init>" "()V" = some (constructorOf 3) ∧
      invokespecialImpl constructorClasses.toClassWorld runnerOf (constructorOf 3) (some 0) =
        .cached (constructorOf 4) ∧
      SpecialOutcome.ofSelected constructorClasses.toClassWorld
        (constructorClasses.jvmsSpecial runnerOf ⟨3, 0⟩ (constructorOf 3)) =
          .cached (constructorOf 3) := by
  have hspec : constructorClasses.jvmsSpecial runnerOf ⟨3, 0⟩ (constructorOf 3) =
      some (constructorOf 3) := rfl
  refine ⟨constructorClasses_wellFormed, by decide +kernel, by decide +kernel, ?_⟩
  rw [hspec]
  decide +kernel

end TraceJvm
