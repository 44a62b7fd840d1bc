import TraceJvm.CodeDecoding
import TraceJvm.InstanceOf
import TraceJvm.Monitors

/-! The way of an exception through a chain of Java frames: `find_exception_handler` and the part of
`interpret_2` that leaves frames, against the first matching entries of the exception tables of the
class files. -/
namespace TraceJvm

open List

structure DispatchMethod where
  cls : ℕ
  cp : List CpEntry
  instructions : List JvmsInsn
  /-- The exception table of the class file. -/
  declared : List JvmsException
  exceptionTable : List ExceptionTableEntry
  /-- `insn_index_to_sd` -/
  insnIndexToSd : ℕ → ℕ
  /-- The entry 0 of a constant pool is not used. -/
  cp_zero : ∀ c, cp[0]? = some c → c.kind ≠ .classInfo
  valid : ValidFrom 0 instructions
  parsed : List.Forall₂ (JvmsException.Denotes cp (startsFrom 0 instructions)
    (instructions.flatMap JvmsInsn.encode).length (instructions.flatMap JvmsInsn.encode).length)
    declared exceptionTable

/-- A frame of the chain. Of the contents of the operand stack only exceptions matter here. -/
structure DispatchFrame where
  method : DispatchMethod
  isNative : Bool
  programCounter : ℕ
  stack : ℕ → Option Throwable
  /-- What `get_sync_object` computes for the frame. -/
  syncObject : Option ℕ

def DispatchFrame.operands (f : DispatchFrame) : List (Option Throwable) :=
  (List.range (f.method.insnIndexToSd f.programCounter)).map f.stack

def DispatchFrame.enterHandler (f : DispatchFrame) (handlerInsn : ℕ) (e : Option Throwable) :
    DispatchFrame :=
  { f with programCounter := handlerInsn, stack := Function.update f.stack 0 e }

/-- Class descriptors with the pending exceptions, monitors, and what the class entries of the
constant pools have been resolved to. -/
structure DispatchVm where
  types : TypeVm
  monitors : MonitorVm
  pool : ℕ → ℕ → Option (Except Throwable ClassRef)

/-- What the search is given. `lookupClass` may run the code of a class loader. -/
structure DispatchEnv where
  world : TypeWorld
  thread : ℕ
  classOf : Throwable → ClassRef
  lookupClass : DispatchVm → ℕ → ℕ → DispatchVm × Option ClassRef
  /-- What `raise_illegal_monitor_state_exception` creates. -/
  illegalMonitorState : Throwable

/-- How the interpreter goes on: in the top frame of those that are left, or behind the chain. A
comparison that reads outside the display of a class has no defined outcome. -/
inductive DispatchOutcome where
  | handled (frames : List DispatchFrame) (s : DispatchVm)
  | propagated (s : DispatchVm)
  | resumed (frames : List DispatchFrame) (s : DispatchVm)
  | undefined

namespace DispatchEnv

variable (E : DispatchEnv)

/-- `thread->current_exception` -/
def pending (s : DispatchVm) : Option Throwable := s.types.vm.currentException E.thread

def setPending (s : DispatchVm) (e : Option Throwable) : DispatchVm :=
  { s with
    types := s.types.mapVm fun v =>
      { v with currentException := Function.update v.currentException E.thread e } }

def setPool (s : DispatchVm) (cls i : ℕ) (r : Except Throwable ClassRef) : DispatchVm :=
  { s with pool := Function.update s.pool cls (Function.update (s.pool cls) i (some r)) }

def resolveClass (s : DispatchVm) (cls i : ℕ) : DispatchVm × Option ClassRef :=
  match s.pool cls i with
  | some (.ok c) => (s, some c)
  | some (.error e) => (E.setPending s (some e), none)
  | none =>
    match E.lookupClass s cls i with
    | (s, some c) => (setPool s cls i (.ok c), some c)
    | (s, none) =>
      match E.pending s with
      | some e => (setPool s cls i (.error e), none)
      | none => (s, none)

/-- `resolve_class(..) || link_class(..)` -/
def prepareCatchType (s : DispatchVm) (cls i : ℕ) : DispatchVm × Option ClassRef :=
  match E.resolveClass s cls i with
  | (s, none) => (s, none)
  | (s, some c) =>
    let l := linkType E.world.toClassWorld E.thread s.types c
    ({ s with types := l.2 }, if l.1 = 0 then some c else none)

def findExceptionHandler (cls pc : ℕ) (exceptionType : ClassRef) :
    DispatchVm → List ExceptionTableEntry → Option (DispatchVm × Option ExceptionTableEntry)
  | s, [] => some (s, none)
  | s, ent :: table =>
    if ent.covers pc then
      match ent.catchType with
      | none => some (s, some ent)
      | some i =>
        match E.prepareCatchType (E.setPending s none) cls i with
        | (s', none) => some (s', none)
        | (s', some c) =>
          let s' := E.setPending s' (E.pending s)
          match E.world.instanceof s'.types exceptionType c with
          | none => none
          | some true => some (s', some ent)
          | some false => findExceptionHandler cls pc exceptionType s' table
    else findExceptionHandler cls pc exceptionType s table

def onFrameEnd (s : DispatchVm) (f : DispatchFrame) : DispatchVm :=
  match f.syncObject with
  | none => s
  | some obj =>
    let m := s.monitors.monitorRelease E.thread obj
    let s := { s with monitors := m }
    if m.returned = some (E.thread, .failed) then E.setPending s (some E.illegalMonitorState) else s

def searchFrame (s : DispatchVm) (e : Throwable) (f : DispatchFrame) :
    Option (DispatchVm × Option ExceptionTableEntry) :=
  if f.isNative then some (s, none)
  else E.findExceptionHandler f.method.cls f.programCounter (E.classOf e) s f.method.exceptionTable

/-- `interpret_2` from the point where the exception `e` is pending in the first of the frames, the
last of which is the entry frame. -/
def dispatch : DispatchVm → Throwable → List DispatchFrame → DispatchOutcome
  | s, _, [] => .propagated s
  | s, e, f :: fs =>
    match E.searchFrame s e f with
    | none => .undefined
    | some (s, some ent) =>
      .handled (f.enterHandler ent.handlerInsn (E.pending s) :: fs) (E.setPending s none)
    | some (s, none) =>
      let s := E.onFrameEnd s f
      match E.pending s with
      | some e => dispatch s e fs
      | none => .resumed fs s

end DispatchEnv

/-! ### Ranges in bytes -/

theorem startsFrom_bounds {pc p : ℕ} {js : List JvmsInsn} (h : ValidFrom pc js)
    (hp : p ∈ startsFrom pc js) : pc ≤ p ∧ p < pc + (js.flatMap JvmsInsn.encode).length := by
  induction js generalizing pc with
  | nil => cases hp
  | cons j js ih =>
    have hpos := JvmsInsn.encode_length_pos h.1
    rw [flatMap_cons, length_append]
    rcases mem_cons.mp hp with rfl | hp
    · omega
    · have hrest := ih h.2 hp
      omega

theorem startsFrom_pairwise {pc : ℕ} {js : List JvmsInsn} (h : ValidFrom pc js) :
    (startsFrom pc js).Pairwise (· < ·) := by
  induction js generalizing pc with
  | nil => exact List.Pairwise.nil
  | cons j js ih =>
    have hpos := JvmsInsn.encode_length_pos h.1
    apply List.Pairwise.cons
    · intro p hp
      have hbounds := startsFrom_bounds h.2 hp
      omega
    · exact ih h.2

theorem lt_iff_of_pairwise {l : List ℕ} {i j a b : ℕ} (h : l.Pairwise (· < ·))
    (hi : l[i]? = some a) (hj : l[j]? = some b) : a < b ↔ i < j := by
  obtain ⟨hi', rfl⟩ := List.getElem?_eq_some_iff.mp hi
  obtain ⟨hj', rfl⟩ := List.getElem?_eq_some_iff.mp hj
  have hlt := pairwise_iff_getElem.mp h
  constructor
  · intro hab
    by_contra hij
    rcases Nat.eq_or_lt_of_le (Nat.le_of_not_lt hij) with heq | hji
    · subst heq
      exact lt_irrefl _ hab
    · exact absurd (hlt j i hj' hi' hji) (by omega)
  · exact hlt i j hi' hj'

def DispatchMethod.Protects (m : DispatchMethod) (x : JvmsException) (pc : ℕ) : Prop :=
  ∃ p, (startsFrom 0 m.instructions)[pc]? = some p ∧ x.startPc ≤ p ∧ p < x.endPc

/-- The comparison of indices is the comparison of the byte positions. -/
theorem DispatchMethod.covers_iff {m : DispatchMethod} {x : JvmsException}
    {ent : ExceptionTableEntry} {pc : ℕ}
    (hx : x.Denotes m.cp (startsFrom 0 m.instructions)
      (m.instructions.flatMap JvmsInsn.encode).length
      (m.instructions.flatMap JvmsInsn.encode).length ent)
    (hpc : pc < m.instructions.length) : ent.covers pc = true ↔ m.Protects x pc := by
  have hsorted := startsFrom_pairwise m.valid
  have hlen := length_startsFrom 0 m.instructions
  obtain ⟨p, hp⟩ : ∃ p, (startsFrom 0 m.instructions)[pc]? = some p :=
    ⟨_, getElem?_eq_getElem (by omega)⟩
  obtain ⟨-, ⟨start, hstart, hstartPc⟩, hend, -⟩ := hx
  have hfrom : ent.startInsn ≤ pc ↔ x.startPc ≤ p := by
    have h := lt_iff_of_pairwise hsorted hp hstart
    omega
  have hto : pc < ent.endInsn ↔ p < x.endPc := by
    rcases hend with ⟨stop, hstop, hstopPc⟩ | ⟨hstopPc, hstop⟩
    · have h := lt_iff_of_pairwise hsorted hp hstop
      omega
    · have hcode := (startsFrom_bounds m.valid (mem_of_getElem? hp)).2
      have hcount := length_le_encode m.valid
      omega
  simp [ExceptionEntry.covers, Protects, hp, hfrom, hto]

/-! ### A link that fails -/

section Link

variable {W : ClassWorld} {t : ℕ} {link : TypeVm → ClassRef → ℤ × TypeVm}

def RaisesOnFailure (t : ℕ) (x : ℤ × TypeVm) : Prop := x.1 ≠ 0 → x.2.vm.currentException t ≠ none

theorem linkTypes_raises (h : ∀ s r, RaisesOnFailure t (link s r)) (s : TypeVm)
    (ps : List ClassRef) : RaisesOnFailure t (linkTypes link s ps) := by
  induction ps generalizing s with
  | nil => exact fun hne => absurd rfl hne
  | cons p ps ih =>
    unfold linkTypes
    dsimp only
    split
    · exact h s p
    · exact ih _

theorem linkArrayType_raises (h : ∀ s r, RaisesOnFailure t (link s r)) (s : TypeVm)
    (r : ClassRef) : RaisesOnFailure t (linkArrayType W link s r) := by
  unfold linkArrayType
  split
  · exact fun hne => absurd rfl hne
  · cases W.baseComponent r with
    | none => exact fun hne => absurd rfl hne
    | some b =>
      intro hne
      have hb := h (s.mapVm fun v => v.setState r .linked) b hne
      dsimp only [TypeVm.setUpFunctionTables, TypeVm.setupSuperHierarchy, TypeVm.mapVm] at hne hb ⊢
      rw [if_pos hne]
      exact hb

theorem linkTypeAux_raises (depth : ℕ) (s : TypeVm) (r : ClassRef) :
    RaisesOnFailure t (linkTypeAux W t depth s r) := by
  induction depth generalizing s r with
  | zero => exact fun hne => absurd rfl hne
  | succ depth ih =>
    unfold linkTypeAux
    split
    · exact fun hne => absurd rfl hne
    · unfold linkLoadedType
      dsimp only
      split
      · exact fun hne => linkTypes_raises ih s _ hne
      · split
        · exact fun hne => linkTypes_raises ih _ _ hne
        · split
          · exact linkArrayType_raises ih _ r
          · split
            · exact fun hne => absurd rfl hne
            · intro _
              simp [TypeVm.mapVm, Vm.recordLinkageError, Vm.raise]

theorem linkType_raises (s : TypeVm) (r : ClassRef) : RaisesOnFailure t (linkType W t s r) :=
  linkTypeAux_raises _ s r

end Link

namespace DispatchEnv

variable (E : DispatchEnv)

/-! ### What the search is to find -/

def Extends (s s' : DispatchVm) : Prop := ∀ cls i r, s.pool cls i = some r → s'.pool cls i = some r

/-- The entries that protect the instruction name classes of which the exception is no instance. -/
def Passed (s : DispatchVm) (m : DispatchMethod) (pc : ℕ) (e : Throwable)
    (xs : List JvmsException) : Prop :=
  ∀ x ∈ xs, m.Protects x pc → x.catchType ≠ 0 ∧
    ∃ c, s.pool m.cls x.catchType = some (.ok c) ∧ ¬ E.world.RuntimeSubtype (E.classOf e) c

/-- The handler is that of the first entry that protects the instruction and whose catch type is a
supertype of the class of the exception. -/
def FirstMatch (s : DispatchVm) (m : DispatchMethod) (pc : ℕ) (e : Throwable)
    (handlerInsn : ℕ) : Prop :=
  ∃ before x after, m.declared = before ++ x :: after ∧ E.Passed s m pc e before ∧
    m.Protects x pc ∧
    (x.catchType = 0 ∨ ∃ c, s.pool m.cls x.catchType = some (.ok c) ∧
      E.world.RuntimeSubtype (E.classOf e) c) ∧
    StartsAt (startsFrom 0 m.instructions) x.handlerPc handlerInsn

/-- The catch type could not be resolved or not be linked, with the exception `e'`. -/
def FailedType (s : DispatchVm) (cls i : ℕ) (e' : Throwable) : Prop :=
  E.pending s = some e' ∧ (s.pool cls i = some (.error e') ∨
    ∃ c s₀, s.pool cls i = some (.ok c) ∧
      (linkType E.world.toClassWorld E.thread s₀ c).1 ≠ 0 ∧
      s.types = (linkType E.world.toClassWorld E.thread s₀ c).2)

def TypeFails (s : DispatchVm) (m : DispatchMethod) (pc : ℕ) (e e' : Throwable) : Prop :=
  ∃ before x after, m.declared = before ++ x :: after ∧ E.Passed s m pc e before ∧
    m.Protects x pc ∧ x.catchType ≠ 0 ∧ E.FailedType s m.cls x.catchType e'

/-- The frame has no handler for `e`, and `e'` is pending when it is left. -/
inductive Leaves (s : DispatchVm) (e : Throwable) (f : DispatchFrame) :
    DispatchVm → Throwable → Prop where
  | native : f.isNative = true → Leaves s e f s e
  | unmatched {s' : DispatchVm} : f.isNative = false →
      E.Passed s' f.method f.programCounter e f.method.declared → E.pending s' = some e →
      Leaves s e f s' e
  | failed {s' : DispatchVm} {e' : Throwable} : f.isNative = false →
      E.TypeFails s' f.method f.programCounter e e' → Leaves s e f s' e'

def Holds (s : DispatchVm) (f : DispatchFrame) : Prop :=
  ∀ obj, f.syncObject = some obj →
    ∃ m, s.monitors.monitor obj = some m ∧ m.tid = some E.thread ∧ m.holdCount ≠ 0

/-- The way of the exception `e` up the chain. A frame that holds no monitor to release passes an
IllegalMonitorStateException on instead. -/
inductive Unwinds : DispatchVm → Throwable → List DispatchFrame → DispatchOutcome → Prop where
  | handled {s s' : DispatchVm} {e : Throwable} {f : DispatchFrame} {fs : List DispatchFrame}
      {handlerInsn : ℕ} : f.isNative = false →
      E.FirstMatch s' f.method f.programCounter e handlerInsn →
      (f.enterHandler handlerInsn (some e)).operands = [some e] →
      Unwinds s e (f :: fs)
        (.handled (f.enterHandler handlerInsn (some e) :: fs) (E.setPending s' none))
  | left {s s' : DispatchVm} {e e' : Throwable} {f : DispatchFrame} {fs : List DispatchFrame}
      {o : DispatchOutcome} : E.Leaves s e f s' e' → E.Holds s' f →
      E.pending (E.onFrameEnd s' f) = some e' → Unwinds (E.onFrameEnd s' f) e' fs o →
      Unwinds s e (f :: fs) o
  | unheld {s s' : DispatchVm} {e e' : Throwable} {f : DispatchFrame} {fs : List DispatchFrame}
      {o : DispatchOutcome} : E.Leaves s e f s' e' → ¬ E.Holds s' f →
      Unwinds (E.onFrameEnd s' f) E.illegalMonitorState fs o → Unwinds s e (f :: fs) o
  | propagated {s : DispatchVm} {e : Throwable} : E.pending s = some e →
      Unwinds s e [] (.propagated s)

/-! ### Conditions -/

/-- A lookup that fails leaves an exception pending, and lookups change no class entry that has been
resolved. Exceptions are objects. -/
structure Sound : Prop where
  fails : ∀ s cls i, (E.lookupClass s cls i).2 = none → E.pending (E.lookupClass s cls i).1 ≠ none
  pool : ∀ s cls i, Extends s (E.lookupClass s cls i).1
  object : ∀ e, E.world.kind (E.classOf e) ≠ .primitive

/-- The descriptors that decide whether an exception is caught are set up. -/
def Comparable (s : DispatchVm) (o c : ClassRef) : Prop :=
  TypeInv E.world.toClassWorld s.types ∧ E.world.kind c ≠ .primitive ∧ E.world.Decided s.types o c

def SearchReady (cls pc : ℕ) (exceptionType : ClassRef) :
    DispatchVm → List ExceptionTableEntry → Prop
  | _, [] => True
  | s, ent :: table =>
    if ent.covers pc then
      ∀ i, ent.catchType = some i → ∀ s' c,
        E.prepareCatchType (E.setPending s none) cls i = (s', some c) →
        E.Comparable (E.setPending s' (E.pending s)) exceptionType c ∧
        (¬ E.world.RuntimeSubtype exceptionType c →
          SearchReady cls pc exceptionType (E.setPending s' (E.pending s)) table)
    else SearchReady cls pc exceptionType s table

def DispatchReady : DispatchVm → Throwable → List DispatchFrame → Prop
  | _, _, [] => True
  | s, e, f :: fs =>
    (f.isNative = false →
      E.SearchReady f.method.cls f.programCounter (E.classOf e) s f.method.exceptionTable) ∧
    ∀ s', E.searchFrame s e f = some (s', none) →
      ∀ e', E.pending (E.onFrameEnd s' f) = some e' → DispatchReady (E.onFrameEnd s' f) e' fs

end DispatchEnv

/-- The instruction is one of the method, and the recorded operand stack of each handler holds one
value. -/
structure DispatchFrame.Verified (f : DispatchFrame) : Prop where
  inCode : f.isNative = false → f.programCounter < f.method.instructions.length
  handlers : ∀ ent ∈ f.method.exceptionTable, f.method.insnIndexToSd ent.handlerInsn = 1

namespace DispatchEnv

variable {E : DispatchEnv} {s s' : DispatchVm} {cls i pc : ℕ} {e : Throwable} {m : DispatchMethod}

/-! ### One search -/

@[simp]
theorem pending_setPending (x : Option Throwable) : E.pending (E.setPending s x) = x := by
  simp [pending, setPending, TypeVm.mapVm]

theorem Extends.trans {s'' : DispatchVm} (h : Extends s s') (h' : Extends s' s'') :
    Extends s s'' := fun cls i r hr => h' cls i r (h cls i r hr)

theorem extends_setPool {r : Except Throwable ClassRef} (hnone : s.pool cls i = none)
    (h : Extends s s') : Extends s (setPool s' cls i r) := by
  intro cls' i' r' hr
  unfold setPool
  by_cases hcls : cls' = cls
  · subst hcls
    have hi : i' ≠ i := by
      rintro rfl
      rw [hnone] at hr
      cases hr
    simpa [hi] using h cls' i' r' hr
  · simpa [hcls] using h cls' i' r' hr

theorem pool_setPool (r : Except Throwable ClassRef) : (setPool s cls i r).pool cls i = some r := by
  simp [setPool]

theorem resolveClass_spec (hE : E.Sound) (s : DispatchVm) (cls i : ℕ) :
    Extends s (E.resolveClass s cls i).1 ∧
      match (E.resolveClass s cls i).2 with
      | some c => (E.resolveClass s cls i).1.pool cls i = some (.ok c)
      | none => ∃ e, E.pending (E.resolveClass s cls i).1 = some e ∧
          (E.resolveClass s cls i).1.pool cls i = some (.error e) := by
  unfold resolveClass
  cases hpool : s.pool cls i with
  | some r =>
    cases r with
    | ok c => exact ⟨fun _ _ _ hr => hr, hpool⟩
    | error e => exact ⟨fun _ _ _ hr => hr, e, pending_setPending _, hpool⟩
  | none =>
    have hkept := hE.pool s cls i
    have hfails := hE.fails s cls i
    dsimp only
    generalize E.lookupClass s cls i = l at hkept hfails ⊢
    obtain ⟨s₁, c | c⟩ := l
    · obtain ⟨e, he⟩ := Option.ne_none_iff_exists'.mp (hfails rfl)
      dsimp only at he ⊢
      rw [he]
      exact ⟨extends_setPool hpool hkept, e, he, pool_setPool _⟩
    · exact ⟨extends_setPool hpool hkept, pool_setPool _⟩

theorem prepareCatchType_spec (hE : E.Sound) (s : DispatchVm) (cls i : ℕ) :
    Extends s (E.prepareCatchType s cls i).1 ∧
      match (E.prepareCatchType s cls i).2 with
      | some c => (E.prepareCatchType s cls i).1.pool cls i = some (.ok c)
      | none => ∃ e, E.FailedType (E.prepareCatchType s cls i).1 cls i e := by
  have hresolve := resolveClass_spec hE s cls i
  unfold prepareCatchType
  generalize E.resolveClass s cls i = l at hresolve ⊢
  obtain ⟨s₁, c | c⟩ := l
  · obtain ⟨hkept, e, hpending, hpool⟩ := hresolve
    exact ⟨hkept, e, hpending, .inl hpool⟩
  · obtain ⟨hkept, hpool⟩ := hresolve
    dsimp only at hkept hpool ⊢
    refine ⟨hkept, ?_⟩
    by_cases hlink : (linkType E.world.toClassWorld E.thread s₁.types c).1 = 0
    · rw [if_pos hlink]
      exact hpool
    · rw [if_neg hlink]
      obtain ⟨e, he⟩ := Option.ne_none_iff_exists'.mp (linkType_raises s₁.types c hlink)
      exact ⟨e, he, .inr ⟨c, s₁.types, hpool, hlink, rfl⟩⟩

theorem passed_nil : E.Passed s m pc e [] := nofun

variable {xs : List JvmsException}

theorem Passed.cons_unprotected {x : JvmsException}
    (hx : ¬ m.Protects x pc) (h : E.Passed s m pc e xs) : E.Passed s m pc e (x :: xs) := by
  intro y hy hpc
  rcases mem_cons.mp hy with rfl | hy
  · exact absurd hpc hx
  · exact h y hy hpc

theorem Passed.cons_other {x : JvmsException} {c : ClassRef}
    (hne : x.catchType ≠ 0) (hc : s.pool m.cls x.catchType = some (.ok c))
    (hsub : ¬ E.world.RuntimeSubtype (E.classOf e) c) (h : E.Passed s m pc e xs) :
    E.Passed s m pc e (x :: xs) := by
  intro y hy hpc
  rcases mem_cons.mp hy with rfl | hy
  · exact ⟨hne, c, hc, hsub⟩
  · exact h y hy hpc

/-- What the search in a part `xs` of the exception table finds. -/
def Found (E : DispatchEnv) (m : DispatchMethod) (pc : ℕ) (e : Throwable)
    (xs : List JvmsException) (s' : DispatchVm) : Option ExceptionTableEntry → Prop
  | some ent => E.pending s' = some e ∧ ∃ before x after, xs = before ++ x :: after ∧
      E.Passed s' m pc e before ∧ m.Protects x pc ∧
      (x.catchType = 0 ∨ ∃ c, s'.pool m.cls x.catchType = some (.ok c) ∧
        E.world.RuntimeSubtype (E.classOf e) c) ∧
      StartsAt (startsFrom 0 m.instructions) x.handlerPc ent.handlerInsn
  | none => (E.Passed s' m pc e xs ∧ E.pending s' = some e) ∨
      ∃ before x after e', xs = before ++ x :: after ∧ E.Passed s' m pc e before ∧
        m.Protects x pc ∧ x.catchType ≠ 0 ∧ E.FailedType s' m.cls x.catchType e'

theorem Found.cons {x : JvmsException} {r : Option ExceptionTableEntry} (h : Found E m pc e xs s' r)
    (hx : ∀ ys, E.Passed s' m pc e ys → E.Passed s' m pc e (x :: ys)) :
    Found E m pc e (x :: xs) s' r := by
  cases r with
  | some ent =>
    obtain ⟨hpending, before, y, after, rfl, hbefore, hrest⟩ := h
    exact ⟨hpending, x :: before, y, after, rfl, hx before hbefore, hrest⟩
  | none =>
    rcases h with ⟨hpassed, hpending⟩ | ⟨before, y, after, e', rfl, hbefore, hrest⟩
    · exact .inl ⟨hx xs hpassed, hpending⟩
    · exact .inr ⟨x :: before, y, after, e', rfl, hx before hbefore, hrest⟩

theorem findExceptionHandler_spec (hE : E.Sound) (hW : E.world.WellFormed)
    (hpc : pc < m.instructions.length)
    {table : List ExceptionTableEntry}
    (hparsed : List.Forall₂ (JvmsException.Denotes m.cp (startsFrom 0 m.instructions)
      (m.instructions.flatMap JvmsInsn.encode).length
      (m.instructions.flatMap JvmsInsn.encode).length) xs table)
    (hs : E.pending s = some e) (hready : E.SearchReady m.cls pc (E.classOf e) s table) :
    ∃ s' r, E.findExceptionHandler m.cls pc (E.classOf e) s table = some (s', r) ∧ Extends s s' ∧
      Found E m pc e xs s' r := by
  induction hparsed generalizing s with
  | nil => exact ⟨s, none, rfl, fun _ _ _ hr => hr, .inl ⟨passed_nil, hs⟩⟩
  | @cons x ent xs table hx _ ih =>
    have hcovers := DispatchMethod.covers_iff hx hpc
    obtain ⟨-, -, -, hhandler, hcatch⟩ := hx
    unfold findExceptionHandler
    unfold SearchReady at hready
    by_cases hcov : ent.covers pc = true
    · rw [if_pos hcov] at hready ⊢
      have hprotects := hcovers.mp hcov
      rcases hcatch with ⟨hzero, hnone⟩ | ⟨⟨c₀, hc₀, hkind⟩, hsome⟩
      · rw [hnone]
        exact ⟨s, some ent, rfl, fun _ _ _ hr => hr, hs, [], x, xs, rfl, passed_nil, hprotects,
          .inl hzero, hhandler⟩
      · have hne : x.catchType ≠ 0 := by
          intro hzero
          rw [hzero] at hc₀
          exact m.cp_zero c₀ hc₀ hkind
        have hprepare := prepareCatchType_spec hE (E.setPending s none) m.cls x.catchType
        have hready := hready x.catchType hsome
        rw [hsome]
        dsimp only
        generalize E.prepareCatchType (E.setPending s none) m.cls x.catchType = l
          at hprepare hready ⊢
        obtain ⟨s₁, c | c⟩ := l
        · obtain ⟨hext, e', hfailed⟩ := hprepare
          exact ⟨s₁, none, rfl, hext, .inr ⟨[], x, xs, e', rfl, passed_nil, hprotects, hne,
            hfailed⟩⟩
        · obtain ⟨hext, hpool⟩ := hprepare
          obtain ⟨⟨hinv, hclass, hdecided⟩, hrest⟩ := hready s₁ c rfl
          obtain ⟨b, hb, hsub⟩ :=
            (TypeWorld.instanceof_answers_iff hW hinv (hE.object e) hclass).mpr hdecided
          have hpending : E.pending (E.setPending s₁ (E.pending s)) = some e := by simp [hs]
          dsimp only at hpool ⊢
          rw [hb]
          cases b with
          | true =>
            exact ⟨_, some ent, rfl, hext, hpending, [], x, xs, rfl, passed_nil, hprotects,
              .inr ⟨c, hpool, hsub.mp rfl⟩, hhandler⟩
          | false =>
            have hother : ¬ E.world.RuntimeSubtype (E.classOf e) c := fun h => by
              simpa using hsub.mpr h
            obtain ⟨s', r, hfind, hext', hfound⟩ := ih hpending (hrest hother)
            exact ⟨s', r, hfind, Extends.trans hext hext', hfound.cons fun ys hys =>
              hys.cons_other hne (hext' _ _ _ hpool) hother⟩
    · rw [if_neg hcov] at hready ⊢
      obtain ⟨s', r, hfind, hext, hfound⟩ := ih hs hready
      exact ⟨s', r, hfind, hext, hfound.cons fun ys hys =>
        hys.cons_unprotected fun hp => hcov (hcovers.mpr hp)⟩

theorem findExceptionHandler_mem {o : ClassRef} {table : List ExceptionTableEntry}
    {ent : ExceptionTableEntry}
    (h : E.findExceptionHandler cls pc o s table = some (s', some ent)) : ent ∈ table := by
  induction table generalizing s with
  | nil => cases h
  | cons x table ih =>
    unfold findExceptionHandler at h
    split at h
    · split at h
      · cases h
        exact mem_cons_self ..
      · split at h
        · cases h
        · dsimp only at h
          split at h
          · cases h
          · cases h
            exact mem_cons_self ..
          · exact mem_cons_of_mem _ (ih h)
    · exact mem_cons_of_mem _ (ih h)

/-! ### The chain -/

theorem monitorRelease_failed_iff {v : MonitorVm} {t obj : ℕ} :
    (v.monitorRelease t obj).returned = some (t, .failed) ↔
      ¬ ∃ m, v.monitor obj = some m ∧ m.tid = some t ∧ m.holdCount ≠ 0 := by
  unfold MonitorVm.monitorRelease
  cases hm : v.monitor obj with
  | none => simp [MonitorVm.returns]
  | some m =>
    by_cases htid : m.tid = some t
    · by_cases hcount : m.holdCount = 0
      · simp [htid, hcount, MonitorVm.returns]
      · dsimp only
        rw [if_neg (not_not.mpr htid), if_neg hcount]
        split
        · simp [htid, hcount, MonitorVm.returns]
        · simp [htid, hcount, MonitorVm.returns]
    · simp [htid, MonitorVm.returns]

theorem pending_onFrameEnd (s : DispatchVm) (f : DispatchFrame) :
    E.Holds s f ∧ E.pending (E.onFrameEnd s f) = E.pending s ∨
      ¬ E.Holds s f ∧ E.pending (E.onFrameEnd s f) = some E.illegalMonitorState := by
  unfold onFrameEnd Holds
  cases f.syncObject with
  | none => exact .inl ⟨nofun, rfl⟩
  | some obj =>
    simp only [Option.some.injEq, forall_eq']
    by_cases hheld : ∃ m, s.monitors.monitor obj = some m ∧ m.tid = some E.thread ∧ m.holdCount ≠ 0
    · rw [if_neg (fun h => monitorRelease_failed_iff.mp h hheld)]
      exact .inl ⟨hheld, rfl⟩
    · rw [if_pos (monitorRelease_failed_iff.mpr hheld)]
      exact .inr ⟨hheld, pending_setPending _⟩

theorem searchFrame_spec (hE : E.Sound) (hW : E.world.WellFormed) {f : DispatchFrame}
    (hf : f.Verified) (hs : E.pending s = some e)
    (hready : f.isNative = false →
      E.SearchReady f.method.cls f.programCounter (E.classOf e) s f.method.exceptionTable) :
    ∃ s' r, E.searchFrame s e f = some (s', r) ∧
      match r with
      | some ent => f.isNative = false ∧ E.pending s' = some e ∧
          ent ∈ f.method.exceptionTable ∧
          E.FirstMatch s' f.method f.programCounter e ent.handlerInsn
      | none => ∃ e', E.Leaves s e f s' e' ∧ E.pending s' = some e' := by
  unfold searchFrame
  cases hnative : f.isNative with
  | true => exact ⟨s, none, rfl, e, .native hnative, hs⟩
  | false =>
    obtain ⟨s', r, hfind, -, hfound⟩ := findExceptionHandler_spec hE hW (hf.inCode hnative)
      f.method.parsed hs (hready hnative)
    refine ⟨s', r, hfind, ?_⟩
    cases r with
    | some ent =>
      obtain ⟨hpending, before, x, after, hdecl, hb, hp, hcatch, hstart⟩ := hfound
      exact ⟨rfl, hpending, findExceptionHandler_mem hfind, before, x, after, hdecl, hb, hp,
        hcatch, hstart⟩
    | none =>
      rcases hfound with ⟨hpassed, hpending⟩ | ⟨before, x, after, e', hdecl, hb, hp, hne, hfailed⟩
      · exact ⟨e, .unmatched hnative hpassed hpending, hpending⟩
      · exact ⟨e', .failed hnative ⟨before, x, after, hdecl, hb, hp, hne, hfailed⟩, hfailed.1⟩

theorem operands_enterHandler {f : DispatchFrame} {handlerInsn : ℕ} (x : Option Throwable)
    (h : f.method.insnIndexToSd handlerInsn = 1) :
    (f.enterHandler handlerInsn x).operands = [x] := by
  simp [DispatchFrame.operands, DispatchFrame.enterHandler, h]

/-- An exception that is pending in a frame goes on at the first matching entry of the nearest
frame that has one. -/
theorem dispatch_unwinds (hE : E.Sound) (hW : E.world.WellFormed) {fs : List DispatchFrame}
    (hs : E.pending s = some e) (hfs : ∀ f ∈ fs, f.Verified) (hready : E.DispatchReady s e fs) :
    E.Unwinds s e fs (E.dispatch s e fs) := by
  induction fs generalizing s e with
  | nil => exact .propagated hs
  | cons f fs ih =>
    obtain ⟨hsearch, hrest⟩ := hready
    have hf := hfs f (mem_cons_self ..)
    have htail : ∀ g ∈ fs, g.Verified := fun g hg => hfs g (mem_cons_of_mem _ hg)
    obtain ⟨s', r, hrun, hr⟩ := searchFrame_spec hE hW hf hs hsearch
    unfold dispatch
    rw [hrun]
    cases r with
    | some ent =>
      obtain ⟨hnative, hpending, hmem, hmatch⟩ := hr
      dsimp only
      rw [hpending]
      exact .handled hnative hmatch (operands_enterHandler _ (hf.handlers ent hmem))
    | none =>
      obtain ⟨e', hleaves, hpending⟩ := hr
      have hnext := hrest s' hrun
      dsimp only
      rcases pending_onFrameEnd s' f with ⟨hholds, hkept⟩ | ⟨hholds, himse⟩
      · rw [hpending] at hkept
        rw [hkept]
        exact .left hleaves hholds hkept (ih hkept htail (hnext e' hkept))
      · rw [himse]
        exact .unheld hleaves hholds (ih himse htail (hnext _ himse))

end DispatchEnv

/-! ### A caller with a handler, and a method without its monitor -/

/-- `athrow` under an entry for the class that the constant 1 names. -/
def throwingMethod : DispatchMethod where
  cls := 0
  cp := [.other .invalid (by decide), .other .classInfo (by decide)]
  instructions := [.simple .athrow]
  declared := [⟨0, 1, 0, 1⟩]
  exceptionTable := [⟨⟨0, 1, 0⟩, some 1⟩]
  insnIndexToSd _ := 1
  cp_zero := by
    rintro c hc
    cases hc
    exact nofun
  valid := ⟨rfl, trivial⟩
  parsed := by
    have hvalid : JvmsException.Valid 1 ⟨0, 1, 0, 1⟩ := by
      unfold JvmsException.Valid
      decide
    exact .cons ⟨hvalid, ⟨0, rfl, rfl⟩, .inr ⟨rfl, rfl⟩, ⟨0, rfl, rfl⟩, .inr ⟨⟨_, rfl, rfl⟩, rfl⟩⟩
      .nil

def throwingFrame (isNative : Bool) (syncObject : Option ℕ) : DispatchFrame :=
  ⟨throwingMethod, isNative, 0, fun _ => none, syncObject⟩

def plainEnv : DispatchEnv where
  world := TypeWorld.bootTypes
  thread := 0
  classOf _ := ⟨0, 0⟩
  lookupClass s _ _ := ({ s with types := s.types.mapVm fun v => v.raise 0 .verifyError }, none)
  illegalMonitorState := .thrown false 2

/-- After the boot sequence, with no monitor in use. The constants are resolved to the class `c`. -/
def plainVm (c : ℕ) : DispatchVm where
  types :=
    (TypeVm.start TypeWorld.bootTypes.toClassWorld).mapVm fun v => v.raise 0 (.thrown false 1)
  monitors := ⟨fun _ => .mark 0, fun _ => .running, fun _ => false, [], fun _ _ => 0, none⟩
  pool _ _ := some (.ok ⟨c, 0⟩)

namespace DispatchEnv

theorem typeInv_setPending {E : DispatchEnv} {s : DispatchVm} {W : ClassWorld}
    (h : TypeInv W s.types) (x : Option Throwable) : TypeInv W (E.setPending s x).types := by
  show TypeInv W (s.types.mapVm fun v =>
    { v with currentException := Function.update v.currentException E.thread x })
  apply h.mapVm
  exact fun _ _ hne => hne

theorem plainEnv_sound : plainEnv.Sound where
  fails _ _ _ _ := by simp [plainEnv, pending, TypeVm.mapVm, Vm.raise]
  pool _ _ _ := fun _ _ _ hr => hr
  object _ := nofun

/-- The exception leaves native code and is caught by its caller. -/
theorem callerCatches_unwinds :
    plainEnv.Unwinds (plainVm 0) (.thrown false 1)
      [throwingFrame true none, throwingFrame false none]
      (plainEnv.dispatch (plainVm 0) (.thrown false 1)
        [throwingFrame true none, throwingFrame false none]) := by
  apply dispatch_unwinds plainEnv_sound TypeWorld.bootTypes_wellFormed rfl
  · intro f hf
    rcases mem_cons.mp hf with rfl | hf
    · exact ⟨nofun, fun _ _ => rfl⟩
    · rcases mem_cons.mp hf with rfl | hf
      · exact ⟨fun _ => Nat.one_pos, fun _ _ => rfl⟩
      · cases hf
  · refine ⟨nofun, fun s' hrun e' he' => ?_⟩
    cases hrun
    obtain rfl : e' = .thrown false 1 := Option.some.inj he'.symm
    refine ⟨fun _ => ?_, fun s' hrun => nomatch hrun⟩
    show plainEnv.SearchReady 0 0 ⟨0, 0⟩ (plainVm 0) throwingMethod.exceptionTable
    unfold throwingMethod SearchReady
    rw [if_pos (by decide)]
    intro i hi s' c hprepare
    cases hi
    cases hprepare
    refine ⟨⟨?_, nofun, .inl rfl⟩, fun hother => ?_⟩
    · have hlinked : (plainEnv.setPending (plainVm 0) none).types.vm.state ⟨0, 0⟩ ≠ .loaded := by
        decide
      rw [linkType, linkTypeAux_of_ne_loaded hlinked]
      apply typeInv_setPending
      apply typeInv_setPending
      show TypeInv _ (TypeVm.mapVm _ fun v => v.raise 0 (.thrown false 1))
      apply (TypeWorld.start_inv TypeWorld.bootTypes_wellFormed).mapVm
      exact fun _ _ hne => hne
    · have hself : TypeWorld.bootTypes.RuntimeSubtype ⟨0, 0⟩ ⟨0, 0⟩ := .refl (by decide)
      exact absurd hself hother

/-- The callee has given up its monitor: its caller gets another exception. -/
theorem unheldMonitor_replaced :
    plainEnv.Passed (plainVm 1) throwingMethod 0 (.thrown false 1) throwingMethod.declared ∧
      plainEnv.pending (plainVm 1) = some (.thrown false 1) ∧
      ∃ s, plainEnv.dispatch (plainVm 1) (.thrown false 1) [throwingFrame false (some 0)] =
        .propagated s ∧ plainEnv.pending s = some (.thrown false 2) := by
  refine ⟨?_, rfl, _, rfl, rfl⟩
  intro x hx _
  obtain rfl := mem_singleton.mp hx
  refine ⟨Nat.one_ne_zero, ⟨1, 0⟩, rfl, fun h => ?_⟩
  have hsub := (TypeWorld.runtimeSubtype_class_iff TypeWorld.bootTypes_wellFormed).mp h
  rw [if_pos (by decide)] at hsub
  rcases Relation.ReflTransGen.cases_head hsub with heq | ⟨p, hp, -⟩
  · cases heq
  · exact absurd hp (not_mem_nil)

end DispatchEnv
end TraceJvm
