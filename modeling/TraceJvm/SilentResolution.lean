import TraceJvm.ClassInit
import TraceJvm.Resolution
import TraceJvm.Resolvers

/-! Resolutions that fail without an exception. Classes and methods never do; a field does when the
class has none, a descriptor when its class is absent, and `new` when the class has failed before. -/
namespace TraceJvm

/-! ### Linking reports its failures -/

section Linking

variable {H : Hierarchy} {t : ℕ}

def Reported (t : ℕ) (l : ℤ × Vm) : Prop := l.1 ≠ 0 → l.2.currentException t ≠ none

theorem linkAll_reported {link : Vm → ClassRef → ℤ × Vm}
    (h : ∀ s r, Reported t (link s r)) (s : Vm) (ps : List ClassRef) :
    Reported t (linkAll link s ps) := by
  induction ps generalizing s with
  | nil => exact fun h0 => absurd rfl h0
  | cons p ps ih =>
    unfold linkAll
    dsimp only
    split
    · exact h s p
    · exact ih _

theorem linkArrayClass_reported {link : Vm → ClassRef → ℤ × Vm}
    (h : ∀ s r, Reported t (link s r)) (s : Vm) (r : ClassRef) :
    Reported t (linkArrayClass H link s r) := by
  unfold linkArrayClass
  split
  · exact fun h0 => absurd rfl h0
  · cases H.baseComponent r with
    | none => exact fun h0 => absurd rfl h0
    | some b =>
      intro h0
      have hb := h (s.setState r .linked) b h0
      dsimp only at h0 ⊢
      rw [if_pos h0]
      exact hb

theorem linkClassAux_reported (d : ℕ) (s : Vm) (r : ClassRef) :
    Reported t (linkClassAux H t d s r) := by
  induction d generalizing s r with
  | zero => exact fun h0 => absurd rfl h0
  | succ d ih =>
    unfold linkClassAux
    split
    · exact fun h0 => absurd rfl h0
    · unfold linkLoaded
      dsimp only
      split
      · rename_i hl
        intro _
        exact linkAll_reported ih s (H.supers r) hl
      · split
        · exact linkArrayClass_reported ih _ r
        · split
          · exact fun h0 => absurd rfl h0
          · intro _
            simp [Vm.recordLinkageError, Vm.raise]

theorem linkClass_reported {s : Vm} {r : ClassRef} (h : (linkClass H t s r).1 ≠ 0) :
    (linkClass H t s r).2.currentException t ≠ none :=
  linkClassAux_reported _ s r h

end Linking

/-! ### Lookups -/

/-- The routine does not return without a target and without an exception. -/
def Loud {α : Type} (x : Option (Resolved α)) : Prop :=
  ∀ r, x = some r → r.target = none → r.exception ≠ none

/-- The name that `lookup_class` looks up in a loader, none for an array of primitives. -/
def lookupName (name : List Char) : Option (List Char) :=
  let dims := (name.takeWhile (· = '[')).length
  let name := name.drop dims
  if dims ≠ 0 ∧ name.head? ≠ some 'L' then none
  else some (if dims ≠ 0 then (name.drop 1).dropLast else name)

def descriptorName : List Char → Option (List Char)
  | [] => none
  | 'L' :: rest => lookupName rest.dropLast
  | '[' :: rest => lookupName ('[' :: rest)
  | _ :: _ => none

/-- The loader does not know the class and finds nothing, without an exception. -/
def ClassLoader.Absent (L : ClassLoader) (name : List Char) : Prop :=
  L.initiating name = none ∧
    if L.isBootstrap then L.loadFromFs name = (none, none)
    else L.makesString name = true ∧ L.loadClass name = (none, none)

theorem map_some_loud {α β : Type} (x : Option β) (f : β → α) :
    Loud (x.map fun k => ⟨some (f k), none⟩) := by
  intro r hr ht
  obtain ⟨k, -, rfl⟩ := Option.map_eq_some_iff.mp hr
  cases ht

namespace FieldWorld

variable (W : FieldWorld) (L : ClassLoader)

theorem finishLookup_loud {dims : ℕ} {name : List Char} {r : Option ℕ × Option ResolutionError}
    (raise : Bool) : Loud (finishLookup dims name raise r) ↔ (raise = false → r ≠ (none, none)) := by
  obtain ⟨c, e⟩ := r
  unfold finishLookup classNotFound
  cases c with
  | some c => simp [Loud]
  | none =>
    cases raise with
    | false => simp [Loud]
    | true =>
      simp only [Bool.not_true, Bool.false_eq_true, if_false, reduceCtorEq, false_implies, iff_true]
      split
      · simp [Loud]
      · cases e <;> simp [Loud]

/-- A lookup is silent exactly where it is not to raise and the class is absent. -/
theorem lookupClass_loud_iff (name : List Char) (raise : Bool) :
    Loud (W.lookupClass L name raise) ↔
      (raise = false → ∀ n, lookupName name = some n → ¬ L.Absent n) := by
  unfold lookupClass lookupName
  dsimp only
  split
  · exact iff_of_true (map_some_loud _ _) (by simp)
  · simp only [Option.some.injEq, forall_eq']
    generalize (if (name.takeWhile (· = '[')).length ≠ 0 then
      ((name.drop (name.takeWhile (· = '[')).length).drop 1).dropLast
      else name.drop (name.takeWhile (· = '[')).length) = n
    unfold ClassLoader.Absent
    cases hi : L.initiating n with
    | some c => simp [Loud]
    | none =>
      dsimp only
      by_cases hb : L.isBootstrap
      · simp only [hb, if_true, finishLookup_loud, true_and, ne_eq]
      · simp only [hb, Bool.false_eq_true, if_false, true_and, not_and]
        by_cases hm : L.makesString n
        · simp only [hm, if_true, finishLookup_loud, true_implies]
          apply imp_congr_right
          intro _
          rcases L.loadClass n with ⟨c, e⟩
          cases e <;> simp
        · simp [hm, Loud]

theorem resolveClass_loud (info : ClassEntry) : Loud (W.resolveClass L info) := by
  unfold resolveClass
  split
  · simp [Loud]
  · simp [Loud]
  · exact (W.lookupClass_loud_iff L info.name true).mpr (fun h => by cases h)

theorem resolveMethodref_loud (initialized : ClassRef → Option ResolutionError)
    (info : MethodEntry) : Loud (W.resolveMethodref L initialized info) := by
  unfold resolveMethodref
  split
  · simp [Loud]
  · intro r hr ht
    obtain ⟨x, hx, rfl⟩ := Option.map_eq_some_iff.mp hr
    cases hc : x.target with
    | none =>
      exact W.resolveClass_loud L info.classInfo x hx hc
    | some c =>
      simp only [hc] at ht ⊢
      cases he : initialized c with
      | some e => simp
      | none =>
        simp only [he] at ht ⊢
        cases hm : W.methodLookupAll c info.name info.descriptor with
        | some m => simp [hm] at ht
        | none => simp

/-- A field is silent exactly where its class is resolved and linked and has no such field. -/
theorem resolveField_loud_iff (t : ℕ) (s : Vm) (info : FieldEntry) :
    Loud (W.resolveField L t s info) ↔
      (info.field = none → ∀ c, W.resolveClass L info.classInfo = some ⟨some c, none⟩ →
        (linkClass W.toHierarchy t s c).1 = 0 →
          W.fieldLookup c info.name info.descriptor ≠ none) := by
  unfold resolveField
  cases hf : info.field with
  | some f => simp [Loud]
  | none =>
    simp only [true_implies]
    have hclass := W.resolveClass_loud L info.classInfo
    cases hr : W.resolveClass L info.classInfo with
    | none => simp [Loud]
    | some x =>
      obtain ⟨c, e⟩ := x
      cases c with
      | none =>
        have he : e ≠ none := hclass _ hr rfl
        simp [Loud, he]
      | some c =>
        by_cases hl : (linkClass W.toHierarchy t s c).1 = 0
        · cases e <;> simp [Loud, hl]
        · have hexc := linkClass_reported hl
          simp [Loud, hl, hexc]

theorem loadClassOfFieldDescriptor_loud_iff (d : List Char) :
    Loud (W.loadClassOfFieldDescriptor L d) ↔ ∀ n, descriptorName d = some n → ¬ L.Absent n := by
  unfold loadClassOfFieldDescriptor descriptorName
  split
  · simp [Loud]
  · simp [lookupClass_loud_iff]
  · simp [lookupClass_loud_iff]
  · exact iff_of_true (map_some_loud _ _) (by simp)

end FieldWorld

/-! ### Instructions that are dispatched again -/

/-- The field instructions that `resolve_getfield_putfield` leaves as they are, without an
exception: the object is there and its class has no such field. -/
def MissingField (obj : Option ℕ) (i : Insn) : Prop :=
  (i.kind = .getfield ∨ i.kind = .putfield) ∧ obj ≠ none ∧
    ∃ f, i.operand = .field f ∧ f.classdesc ≠ none ∧ f.links = true ∧ f.field = none

/-- `initialize_class` ends without an exception on a class that has failed. -/
def InitReply.Unusable (r : InitReply) : Prop :=
  r.ready = true ∧ r.exception = false ∧ r.state < 3

/-- `new` of a class that `initialize_class` leaves unusable. -/
def FailedNew (r : InitReply) (i : Insn) : Prop :=
  i.kind = .new ∧ (∃ c, i.operand = .classInfo c ∧ c.classdesc ≠ none) ∧ r.Unusable

section Dispatch

variable {T : Tables} {obj : Option ℕ} {r : InitReply} {i : Insn}

theorem finishStatic_ne_retry (f : CpField) : (finishStatic f r i).2 ≠ .retry := by
  unfold finishStatic
  repeat' split
  all_goals simp

theorem finishInvokestatic_ne_retry (b : Bool) : (finishInvokestatic b r i).2 ≠ .retry := by
  unfold finishInvokestatic
  repeat' split
  all_goals simp

theorem resolveClassOperand_ne_retry (k : InsnKind) :
    (resolveClassOperand k i).2 ≠ .retry := by
  unfold resolveClassOperand
  repeat' split
  all_goals simp

theorem resolveInterfaceMethod_ne_retry (receiver : ℕ) (m : CpMethodInfo) (md : Method) :
    (resolveInterfaceMethod T receiver m md i).2 ≠ .retry := by
  unfold resolveInterfaceMethod
  dsimp only
  split <;> simp

theorem resolveVirtualMethod_ne_retry (receiver : ℕ) (m : CpMethodInfo) (md : Method) :
    (resolveVirtualMethod T receiver m md i).2 ≠ .retry := by
  unfold resolveVirtualMethod
  dsimp only
  split
  · simp
  · split
    · exact resolveInterfaceMethod_ne_retry receiver m md
    · simp

theorem resolveInstanceCall_ne_retry : (resolveInstanceCall T obj i).2 ≠ .retry := by
  unfold resolveInstanceCall
  split
  · dsimp only
    split
    · split
      · split <;> simp
      · split
        · exact resolveInterfaceMethod_ne_retry _ _ _
        · exact resolveVirtualMethod_ne_retry _ _ _
    · simp
  · simp

theorem resolveInvokedynamic_ne_retry : (resolveInvokedynamic i).2 ≠ .retry := by
  unfold resolveInvokedynamic
  repeat' split
  all_goals simp

theorem executeMonomorphic_ne_retry : (executeMonomorphic T obj i).2 ≠ .retry := by
  unfold executeMonomorphic
  repeat' split
  all_goals simp

theorem finishNew_retry_iff {c : ℕ} :
    (finishNew c r i).2 = .retry ↔ r.exception = false ∧ r.state < 3 := by
  unfold finishNew
  cases r.exception <;> by_cases hs : r.state < 3 <;> simp [hs]

theorem resolveGetfieldPutfield_retry_iff
    (hk : i.kind = .getfield ∨ i.kind = .putfield) :
    (resolveGetfieldPutfield obj i).2 = .retry ↔ MissingField obj i := by
  unfold resolveGetfieldPutfield MissingField
  split
  · rename_i f hop
    simp only [hk, true_and, hop, Operand.field.injEq, exists_eq_left', ne_eq]
    split
    · rename_i hfail
      simp only [reduceCtorEq, false_iff, not_and]
      intro hobj hclass hlinks
      simp [hobj, hclass, hlinks] at hfail
    · rename_i hgood
      simp only [not_or, Bool.not_eq_true', Bool.not_eq_false] at hgood
      cases hf : f.field with
      | none => simp [hgood]
      | some fd =>
        simp only [reduceCtorEq, and_false, iff_false]
        repeat' split
        all_goals simp
  · rename_i hop
    simp only [reduceCtorEq, false_iff]
    rintro ⟨-, -, f, hf, -⟩
    exact hop f hf

theorem not_missingField (hg : i.kind ≠ .getfield) (hp : i.kind ≠ .putfield) :
    ¬ MissingField obj i := fun h => h.1.elim hg hp

theorem retry_iff_of_ne {x : Insn × Status} (hx : x.2 ≠ .retry) (hg : i.kind ≠ .getfield)
    (hp : i.kind ≠ .putfield) (hn : i.kind ≠ .new) :
    x.2 = .retry ↔ MissingField obj i ∨ FailedNew r i := by
  refine iff_of_false hx ?_
  rintro (h | h)
  · exact not_missingField hg hp h
  · exact hn h.1

theorem dispatch_field_retry_iff (hk : i.kind = .getfield ∨ i.kind = .putfield) :
    (resolveGetfieldPutfield obj i).2 = .retry ↔ MissingField obj i ∨ FailedNew r i := by
  rw [resolveGetfieldPutfield_retry_iff hk, or_iff_left]
  intro h
  have hn := h.1
  rcases hk with hk | hk <;> simp [hk] at hn

/-- The instructions that are dispatched again unchanged. -/
theorem dispatch_retry_iff :
    (dispatch T obj r i).2 = .retry ↔ MissingField obj i ∨ FailedNew r i := by
  unfold dispatch
  split
  case h_3 hk =>
    rw [or_iff_right (not_missingField (by simp [hk]) (by simp [hk]))]
    unfold FailedNew InitReply.Unusable
    split
    · rename_i c hop
      simp only [hk, hop, Operand.classInfo.injEq, exists_eq_left', true_and]
      cases hc : c.classdesc with
      | none => simp
      | some d =>
        by_cases hr : r.ready = true
        · simp [hr, finishNew_retry_iff]
        · simp [hr]
    · rename_i hop
      simp only [reduceCtorEq, false_iff]
      rintro ⟨-, ⟨c, hc, -⟩, -⟩
      exact hop c hc
  case h_5 hk => exact dispatch_field_retry_iff (.inl hk)
  case h_6 hk => exact dispatch_field_retry_iff (.inr hk)
  case h_16 =>
    exact retry_iff_of_ne (by simp) (by assumption) (by assumption) (by assumption)
  all_goals
    rename_i hk
    refine retry_iff_of_ne ?_ (by simp [hk]) (by simp [hk]) (by simp [hk])
  · repeat' split
    all_goals first | exact finishStatic_ne_retry _ | simp
  · repeat' split
    all_goals first | exact finishStatic_ne_retry _ | simp
  · repeat' split
    all_goals first | exact finishInvokestatic_ne_retry _ | simp
  iterate 3 exact resolveClassOperand_ne_retry _
  iterate 3 exact resolveInstanceCall_ne_retry
  · exact resolveInvokedynamic_ne_retry
  · exact executeMonomorphic_ne_retry
  · exact executeMonomorphic_ne_retry

theorem jmpVoid_retry_iff {x : Insn × Status} :
    (jmpVoid x).2 = .retry ↔ x.2 = .retry := by
  unfold jmpVoid
  split
  · dsimp only
    split <;> simp
  · exact Iff.rfl

theorem resume_retry_iff {c : Suspended} :
    (resume c r i).2 = .retry ↔ (∃ d, c = .newInst d) ∧ r.Unusable := by
  unfold resume InitReply.Unusable
  cases hr : r.ready with
  | false => simp
  | true =>
    simp only [Bool.not_true, Bool.false_eq_true, if_false, true_and]
    cases c with
    | getstaticPutstatic f => simp [jmpVoid_retry_iff, finishStatic_ne_retry]
    | newInst d => simp [jmpVoid_retry_iff, finishNew_retry_iff]
    | invokestatic => simp [jmpVoid_retry_iff, finishInvokestatic_ne_retry]

end Dispatch

/-- The operand of a field instruction whose entry is not resolved yet, as the resolution finds
it; `describe` gives the data of a declared field. -/
def FieldWorld.fieldOperand (W : FieldWorld) (L : ClassLoader) (t : ℕ) (s : Vm)
    (describe : FieldDecl → Field) (kind : TypeKind) (info : FieldEntry) : CpField :=
  match W.resolveClass L info.classInfo with
  | some ⟨some c, none⟩ =>
      ⟨some c.base, (linkClass W.toHierarchy t s c).1 = 0,
        (W.fieldLookup c info.name info.descriptor).map describe, kind⟩
  | _ => ⟨none, false, none, kind⟩

/-- A field instruction on an object is dispatched again unchanged exactly where the resolution of
its field is silent. -/
theorem FieldWorld.dispatch_retry_iff_silent (W : FieldWorld) (L : ClassLoader) (T : Tables)
    (r : InitReply) (o t : ℕ) (s : Vm) (describe : FieldDecl → Field) (kind : TypeKind)
    (info : FieldEntry) (put : Bool) (i : Insn) :
    let unresolved := { info with field := none }
    (dispatch T (some o) r { i with
      kind := if put then .putfield else .getfield
      operand := .field (W.fieldOperand L t s describe kind unresolved) }).2 = .retry ↔
      ¬ Loud (W.resolveField L t s unresolved) := by
  intro unresolved
  have hk : (if put then InsnKind.putfield else .getfield) = .getfield ∨
      (if put then InsnKind.putfield else .getfield) = .putfield := by cases put <;> simp
  rw [dispatch_retry_iff, or_iff_left (fun h => by cases put <;> cases h.1), resolveField_loud_iff]
  simp only [MissingField, hk, Operand.field.injEq, exists_eq_left', ne_eq, reduceCtorEq,
    not_false_eq_true, true_and, true_implies, fieldOperand, not_forall, not_not, unresolved]
  split
  · rename_i c hc
    simp [hc]
  · rename_i hc
    simp only [not_true_eq_false, false_and, false_iff, not_exists]
    exact fun c h => absurd h (hc c)

/-- A use of the resolution routines: a routine by itself, or an instruction that is executed or
resumed. -/
inductive ResolutionRequest where
  | ofClass (info : ClassEntry)
  | ofField (t : ℕ) (s : Vm) (info : FieldEntry)
  | ofMethod (initialized : ClassRef → Option ResolutionError) (info : MethodEntry)
  | ofDescriptor (descriptor : List Char)
  | execute (T : Tables) (obj : Option ℕ) (r : InitReply) (i : Insn)
  | resume (c : Suspended) (r : InitReply) (i : Insn)

/-- A routine that returns has a target or leaves an exception, and no instruction is dispatched
again unchanged. -/
def NotSilent (W : FieldWorld) (L : ClassLoader) : ResolutionRequest → Prop
  | .ofClass info => Loud (W.resolveClass L info)
  | .ofField t s info => Loud (W.resolveField L t s info)
  | .ofMethod initialized info => Loud (W.resolveMethodref L initialized info)
  | .ofDescriptor d => Loud (W.loadClassOfFieldDescriptor L d)
  | .execute T obj r i => (dispatch T obj r i).2 ≠ .retry
  | .resume c r i => (TraceJvm.resume c r i).2 ≠ .retry

/-- The requests that have an answer: the field is there when its class is resolved and linked,
the class of the descriptor is not absent, `new` does not meet a failed class. -/
def Answerable (W : FieldWorld) (L : ClassLoader) : ResolutionRequest → Prop
  | .ofClass _ => True
  | .ofField t s info => info.field = none → ∀ c,
      W.resolveClass L info.classInfo = some ⟨some c, none⟩ →
      (linkClass W.toHierarchy t s c).1 = 0 → W.fieldLookup c info.name info.descriptor ≠ none
  | .ofMethod _ _ => True
  | .ofDescriptor d => ∀ n, descriptorName d = some n → ¬ L.Absent n
  | .execute _ obj r i => ¬ MissingField obj i ∧ ¬ FailedNew r i
  | .resume c r _ => ¬ ((∃ d, c = .newInst d) ∧ r.Unusable)

/-- Resolution is never silent exactly on the requests that have an answer. -/
theorem resolution_notSilent_iff (W : FieldWorld) (L : ClassLoader) (q : ResolutionRequest) :
    NotSilent W L q ↔ Answerable W L q := by
  cases q with
  | ofClass info => exact iff_of_true (W.resolveClass_loud L info) trivial
  | ofField t s info => exact W.resolveField_loud_iff L t s info
  | ofMethod initialized info => exact iff_of_true (W.resolveMethodref_loud L initialized info) trivial
  | ofDescriptor d => exact W.loadClassOfFieldDescriptor_loud_iff L d
  | execute T obj r i =>
    show ¬ _ = _ ↔ _
    rw [dispatch_retry_iff, not_or]
    exact Iff.rfl
  | resume c r i =>
    show ¬ _ = _ ↔ _
    rw [resume_retry_iff]
    exact Iff.rfl

/-- `Object` and a class `A` without fields. -/
def fieldlessWorld : FieldWorld where
  isPrimitive _ := false
  superClass
    | 1 => some 0
    | _ => none
  interfaces _ := []
  hasClinit _ := false
  verifies _ := true
  object := 0
  cloneable := 0
  serializable := 0
  super_lt := by
    intro c p h
    split at h
    · cases h
      decide
    · cases h
  interfaces_lt := Hierarchy.lt_of_mem_nil
  className
    | 0 => "java/lang/Object"
    | _ => "A"
  loader _ := 0
  isInterface _ := false
  methods _ := []
  my_class := ClassWorld.my_class_nil
  my_index := ClassWorld.my_index_nil
  fields _ := []
  primitiveClass _ := 0

/-- A bootstrap loader that knows `A` and has no other files. -/
def fieldlessLoader : ClassLoader where
  isBootstrap := true
  initiating name := if name = ['A'] then some 1 else none
  loadFromFs _ := (none, none)
  makesString _ := true
  loadClass _ := (none, none)

/-- `getfield A.x` of a class without that field fails in silence and is dispatched again. -/
theorem resolveField_silent :
    ¬ NotSilent fieldlessWorld fieldlessLoader
        (.ofField 0 (Vm.initial fieldlessWorld.toHierarchy)
          ⟨⟨['A'], none, none⟩, ['x'], ['I'], none⟩) ∧
      ¬ NotSilent fieldlessWorld fieldlessLoader (.ofDescriptor ['L', 'B', ';']) ∧
      ¬ NotSilent fieldlessWorld fieldlessLoader
        (.execute ⟨fun _ _ => 0, fun _ _ _ => none, fun _ => 0⟩ (some 7) ⟨true, false, 4⟩
          ⟨.getfield, 0, false, .field ⟨some 1, true, none, .int⟩, .null, .null⟩) := by
  refine ⟨fun h => h ⟨none, none⟩ rfl rfl rfl, fun h => h ⟨none, none⟩ rfl rfl rfl, fun h => h rfl⟩

end TraceJvm
