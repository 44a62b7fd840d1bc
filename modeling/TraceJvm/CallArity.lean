import Mathlib.Tactic.Ring
import TraceJvm.Analysis
import TraceJvm.InlineCache

/-! The number of operands of a call: as `parse_method_descriptor` counts the parameters, as the
analyser pops them, as the resolving handlers store it in `args`, and as the invoked method takes
them. -/
namespace TraceJvm
open Mealy List

/-! ### Descriptors -/

/-- `parse_field_descriptor`, after the given number of dimensions: the descriptor and what is left
of the text. -/
def parseFieldDescriptor (dimensions : ℕ) :
    List Char → Except String (FieldDescriptor × List Char)
  | [] => .error "Expected field descriptor character, but reached end of string"
  | c :: cs =>
    if 255 < dimensions then .error "too many dimensions (max 255)"
    else if c = '[' then parseFieldDescriptor (dimensions + 1) cs
    else if c = 'L' then
      match cs.dropWhile (· ≠ ';') with
      | [] => .error "missing ';' in reference type"
      | _ :: rest =>
        if cs.takeWhile (· ≠ ';') = [] then .error "missing reference type name"
        else .ok (⟨.reference, dimensions, nofun⟩, rest)
    else
      match readTypeKindChar c with
      | none => .error ("invalid field descriptor character '" ++ c.toString ++ "'")
      | some kind =>
        if h : kind = .void ∧ 0 < dimensions then .error "void cannot have dimensions"
        else .ok (⟨kind, dimensions, fun hv => by simpa [hv] using h⟩, cs)

def Parameter : Type := { d : FieldDescriptor // d.baseKind ≠ .void }

/-- The loop of `parse_method_descriptor` over the parameters, which leaves the closing bracket. The
bound is the length of the text. -/
def parseParameters : ℕ → List Char → Except String (List Parameter × List Char)
  | 0, cs => .ok ([], cs)
  | _ + 1, [] => .ok ([], [])
  | bound + 1, c :: cs =>
    if c = ')' then .ok ([], c :: cs)
    else
      match parseFieldDescriptor 0 (c :: cs) with
      | .error e => .error e
      | .ok (arg, rest) =>
        if h : arg.baseKind = .void then .error "void as method parameter"
        else
          match parseParameters bound rest with
          | .error e => .error e
          | .ok (args, rest) => .ok (⟨arg, h⟩ :: args, rest)

/-- `parse_method_descriptor`. What follows the result type is not looked at. -/
def parseMethodDescriptor (text : String) : Except String MethodDescriptor :=
  match text.toList with
  | '(' :: cs =>
    match parseParameters cs.length cs with
    | .error e => .error e
    | .ok (_, []) => .error "missing ')' in method descriptor"
    | .ok (args, _ :: rest) =>
      match parseFieldDescriptor 0 rest with
      | .error e => .error e
      | .ok (returnType, _) =>
        .ok ⟨args.map Subtype.val, returnType, fun a ha => by
          obtain ⟨p, -, rfl⟩ := mem_map.mp ha
          exact p.property⟩
  | _ => .error "Expected '('"

/-- `args_count` of the descriptor. A class with a text that does not parse is not loaded. -/
def argsCount (text : String) : ℕ :=
  match parseMethodDescriptor text with
  | .ok d => d.args.length
  | .error _ => 0

/-! ### Call sites -/

inductive InvokeKind where
  | invokestatic
  | invokevirtual
  | invokespecial
  | invokeinterface
  deriving DecidableEq

def InvokeKind.insnKind : InvokeKind → InsnKind
  | .invokestatic => .invokestatic
  | .invokevirtual => .invokevirtual
  | .invokespecial => .invokespecial
  | .invokeinterface => .invokeinterface

def InvokeKind.receivers : InvokeKind → ℕ
  | .invokestatic => 0
  | _ => 1

/-- A call in a method, with its method reference and the parsed descriptor of that. -/
structure InvokeSite where
  kind : InvokeKind
  method : CpMethod
  named : ClassRef
  name : String
  descriptor : String
  parsed : MethodDescriptor
  parsed_eq : parseMethodDescriptor descriptor = .ok parsed

namespace InvokeSite

/-- `insn->args`, which has eight bits. -/
def args (site : InvokeSite) : ℕ := (site.parsed.args.length + site.kind.receivers) % 256

def popped (site : InvokeSite) : ℕ :=
  match stackEffect { kind := site.kind.insnKind, originalPc := 0, method := site.parsed } with
  | some (pops, _) => pops.length
  | none => 0

/-- The argument slots of the call, of which a `long` or `double` takes two. -/
def slots (site : InvokeSite) : ℕ :=
  (site.parsed.args.map fun a => if a.isWide then 2 else 1).sum + site.kind.receivers

def invoked (W : ClassWorld) (site : InvokeSite) (resolved : CpMethod) (isFinal : Bool)
    (rs : List (Option ClassRef)) : List CpMethod :=
  match site.kind with
  | .invokestatic => rs.map fun _ => resolved
  | .invokespecial =>
    rs.filterMap fun r =>
      match invokespecialImpl W site.method resolved (r.map ClassRef.base) with
      | .cached m => some m
      | _ => none
  | .invokevirtual =>
    (outputs (W.call resolved isFinal) (.unresolved .invokevirtual) rs).filterMap fun
      | .invokes m => some m
      | _ => none
  | .invokeinterface =>
    (outputs (W.call resolved isFinal) (.unresolved .invokeinterface) rs).filterMap fun
      | .invokes m => some m
      | _ => none

/-- The parameters of the invoked method. A signature polymorphic method that `invokestatic` calls
gets a frame for the descriptor of the call. -/
def calleeParameters (site : InvokeSite) (m : CpMethod) : ℕ :=
  if site.kind = .invokestatic ∧ m.isSignaturePolymorphic then site.parsed.args.length
  else argsCount m.descriptor

end InvokeSite

/-- The call passes what the analyser pops and the method takes, to a method of the right kind and
in no more than 255 slots. -/
structure ArityAgrees (site : InvokeSite) (m : CpMethod) : Prop where
  analysed : site.args = site.popped
  callee : site.args = site.calleeParameters m + if m.isStatic then 0 else 1
  kind : m.isStatic = true ↔ site.kind = .invokestatic
  slots : site.slots ≤ 255

def foundByDescriptor (site : InvokeSite) (resolved m : CpMethod) : Prop :=
  (site.kind = .invokestatic ∨ site.kind = .invokespecial) ∧
    resolved.isSignaturePolymorphic = false ∧ m.isSignaturePolymorphic = false

structure FitsCallSite (site : InvokeSite) (resolved m : CpMethod) : Prop where
  kind : m.isStatic = true ↔ site.kind = .invokestatic
  slots : site.slots ≤ 255
  parameters : ¬ foundByDescriptor site resolved m →
    site.calleeParameters m = site.parsed.args.length

section Sites

variable {W : FieldWorld} {site : InvokeSite} {resolved m : CpMethod}

theorem InvokeSite.popped_eq : site.popped = site.parsed.args.length + site.kind.receivers := by
  unfold InvokeSite.popped
  cases site.kind <;> simp [stackEffect, InvokeKind.insnKind, InvokeKind.receivers]

theorem InvokeSite.argsCount_eq : argsCount site.descriptor = site.parsed.args.length := by
  rw [argsCount, site.parsed_eq]

theorem InvokeSite.length_le_slots :
    site.parsed.args.length + site.kind.receivers ≤ site.slots := by
  unfold InvokeSite.slots
  have hlen : ∀ l : List FieldDescriptor,
      l.length ≤ (l.map fun a => if a.isWide then 2 else 1).sum := by
    intro l
    induction l with
    | nil => exact Nat.le_refl 0
    | cons a l ih =>
      rw [length_cons, map_cons, sum_cons]
      split <;> omega
  have := hlen site.parsed.args
  omega

theorem descriptor_of_declared {W : ClassWorld} {r : ClassRef} {name descriptor : String}
    (h : W.declared r name descriptor = some m) (hpoly : m.isSignaturePolymorphic = false) :
    m.descriptor = descriptor := by
  have hmatch : m.candidateMatches name descriptor = true := by
    unfold ClassWorld.declared at h
    simpa using find?_some h
  simpa [CpMethod.candidateMatches, hpoly] using (of_decide_eq_true hmatch).2

/-- The search of an `invokespecial` finds a method by name and descriptor, never in an itable. -/
theorem specialCandidate_descriptor {W : ClassWorld} {method resolved : CpMethod}
    (hdecl : resolved ∈ W.methodsOf ⟨resolved.cls, 0⟩)
    (h : W.specialCandidate method resolved = some m) (hpoly : m.isSignaturePolymorphic = false) :
    m.descriptor = resolved.descriptor := by
  unfold ClassWorld.specialCandidate at h
  split at h
  · rename_i candidate hlookup
    split at h
    · cases h
    · cases h
      exact descriptor_of_declared (ClassWorld.declared_of_methodLookup hlookup) hpoly
  · rename_i hlookup
    split at h
    · rename_i hinterface
      have hsearch : W.searchesSuper method resolved = false := by
        simp [ClassWorld.searchesSuper, hinterface]
      rw [ClassWorld.lookupOn, if_neg (by simp [hsearch]), ClassWorld.methodLookup_eq,
        ClassWorld.chain_eq, findSome?_cons] at hlookup
      split at hlookup
      · cases hlookup
      · rename_i hnone
        have hself := find?_eq_none.mp hnone resolved hdecl
        simp [CpMethod.candidateMatches] at hself
    · cases h

theorem specialCandidate_of_cached {W : ClassWorld} {method resolved : CpMethod}
    {receiver : Option ℕ} (h : invokespecialImpl W method resolved receiver = .cached m) :
    W.specialCandidate method resolved = some m := by
  unfold invokespecialImpl at h
  split at h
  · cases h
  · split at h
    · cases h
    · rename_i hcandidate
      split at h
      · cases h
      · cases h
        exact hcandidate

/-- Where the method was found by the descriptor of the reference, its parameters are those. -/
theorem calleeParameters_of_found {isFinal : Bool} {rs : List (Option ClassRef)}
    (hres : W.methodLookupAll site.named site.name site.descriptor = some resolved)
    (hm : m ∈ site.invoked W.toClassWorld resolved isFinal rs)
    (hfound : foundByDescriptor site resolved m) :
    site.calleeParameters m = site.parsed.args.length := by
  obtain ⟨hkind, hpoly, hpolym⟩ := hfound
  have hdecl := ClassWorld.declared_of_methodLookupAux hres
  have hdescr := descriptor_of_declared hdecl hpoly
  have hsame : m.descriptor = site.descriptor := by
    rcases hkind with hkind | hkind
    · simp only [InvokeSite.invoked, hkind, mem_map] at hm
      obtain ⟨-, -, rfl⟩ := hm
      exact hdescr
    · simp only [InvokeSite.invoked, hkind, mem_filterMap] at hm
      obtain ⟨r, -, hr⟩ := hm
      have hcandidate : W.specialCandidate site.method resolved = some m := by
        split at hr
        · rename_i hcached
          cases hr
          exact specialCandidate_of_cached hcached
        · cases hr
      rw [← hdescr]
      exact specialCandidate_descriptor (mem_of_find?_eq_some hdecl) hcandidate hpolym
  unfold InvokeSite.calleeParameters
  rw [hpolym, hsame, InvokeSite.argsCount_eq]
  simp

end Sites

/-- A call of `greet` of class `A`, which has no parameters. -/
def greetSite (kind : InvokeKind) : InvokeSite where
  kind := kind
  method := runnerOf
  named := ⟨3, 0⟩
  name := "greet"
  descriptor := "()V"
  parsed := .empty
  parsed_eq := by rfl

theorem greetSite_resolved : constructorClasses.methodLookupAll ⟨3, 0⟩ "greet" "()V" =
    some (greetingOf 3) := by
  decide +kernel

end TraceJvm
