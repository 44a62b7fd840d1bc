import Mathlib.Order.Nat
import Mathlib.Tactic.Common

/-! Class descriptors and `link_class`. Linking runs without a suspension point, so
one call is one transition of the virtual machine. -/
namespace TraceJvm

open Function List

/-- `classdesc_state`, in the order of the C enumeration. -/
inductive ClassState where
  | linkageError
  | loaded
  | linked
  | initializing
  | initialized
  deriving DecidableEq

/-- The numeric value of the enumeration, used by the `<` and `>=` comparisons. -/
def ClassState.rank : ClassState → ℕ
  | .linkageError => 0
  | .loaded => 1
  | .linked => 2
  | .initializing => 3
  | .initialized => 4

/-- `classdesc_kind`, in the order of the C enumeration. -/
inductive ClassKind where
  | ordinary
  | primitive
  | ordinaryArray
  | primitiveArray
  deriving DecidableEq

structure ClassRef where
  base : ℕ
  dims : ℕ
  deriving DecidableEq

/-- Exceptions that linking and initialisation leave pending. `thrown isError n` is an
exception object of the running program. -/
inductive Throwable where
  | verifyError
  | outOfMemoryError
  | exceptionInInitializerError
  | thrown (isError : Bool) (id : ℕ)

/-- `is_error`: the class of the exception is a subclass of `java/lang/Error`. -/
def Throwable.isError : Throwable → Bool
  | .verifyError => true
  | .outOfMemoryError => true
  | .exceptionInInitializerError => true
  | .thrown b _ => b

/-- The static part of the loaded classes. A class is defined after its superclass and
interfaces have been resolved, hence the order on identifiers. -/
structure Hierarchy where
  isPrimitive : ℕ → Bool
  superClass : ℕ → Option ℕ
  interfaces : ℕ → List ℕ
  hasClinit : ℕ → Bool
  /-- `analyze_method_code` accepts every method of the class. -/
  verifies : ℕ → Bool
  object : ℕ
  cloneable : ℕ
  serializable : ℕ
  super_lt : ∀ {c p : ℕ}, superClass c = some p → p < c
  interfaces_lt : ∀ {c p : ℕ}, p ∈ interfaces c → p < c

namespace Hierarchy

theorem lt_of_mem_nil {c p : ℕ} (h : p ∈ ([] : List ℕ)) : p < c := by cases h

def kind (H : Hierarchy) (r : ClassRef) : ClassKind :=
  match H.isPrimitive r.base, r.dims with
  | false, 0 => .ordinary
  | true, 0 => .primitive
  | true, 1 => .primitiveArray
  | _, _ => .ordinaryArray

/-- `super_class` followed by `interfaces`; `fill_array_classdesc` gives every array class
the same three. -/
def supers (H : Hierarchy) (r : ClassRef) : List ClassRef :=
  if r.dims = 0 then
    ((H.superClass r.base).toList ++ H.interfaces r.base).map fun p => ⟨p, 0⟩
  else [⟨H.object, 0⟩, ⟨H.cloneable, 0⟩, ⟨H.serializable, 0⟩]

/-- `base_component`, null for arrays over a primitive type. -/
def baseComponent (H : Hierarchy) (r : ClassRef) : Option ClassRef :=
  if r.dims = 0 ∨ H.isPrimitive r.base then none else some ⟨r.base, 0⟩

/-- Calls of `link_class` nest at most this deep. -/
def linkDepth (H : Hierarchy) (r : ClassRef) : ℕ :=
  if r.dims = 0 then r.base + 1 else max r.base (max H.object (max H.cloneable H.serializable)) + 2

end Hierarchy

/-- Why linking or initialisation of a class ended without success. `aborted` covers an
initialisation that stopped before its `<clinit>` ran. -/
inductive Failure where
  | link
  | clinit
  | aborted

/-- Program point of one `initialize_class` call. -/
inductive Phase where
  | enter
  | waiting
  | superAwait
  | interfaceAwait (i : ℕ)
  | clinit
  deriving DecidableEq

/-- One `initialize_class` call; `result` is `recursive_call_space->_result` once the
awaited call has returned. -/
structure Activation where
  cls : ClassRef
  phase : Phase
  result : Option ℤ

/-- Class descriptors, pending exceptions and active `initialize_class` calls of all
threads, innermost call first. `clinitStarts`, `failure`, `started` and `returned` record
history and are read by no transition. -/
structure Vm where
  state : ClassRef → ClassState
  linkageError : ClassRef → Option Throwable
  initializingThread : ClassRef → ℕ
  /-- Length of the `array_type` chain hanging off a base class. -/
  arrayDims : ℕ → ℕ
  currentException : ℕ → Option Throwable
  calls : ℕ → List Activation
  clinitStarts : ClassRef → ℕ
  failure : ClassRef → Option Failure
  started : Option (ℕ × ClassRef)
  returned : Option (ℕ × ClassRef × ℤ)

namespace Vm

def setState (s : Vm) (r : ClassRef) (x : ClassState) : Vm :=
  { s with state := update s.state r x }

/-- The loop over `array_type`, which writes one state to all array classes of a base. -/
def setArrayStates (s : Vm) (c : ℕ) (x : ClassState) : Vm :=
  { s with state := fun r =>
      if r.base = c ∧ 0 < r.dims ∧ r.dims ≤ s.arrayDims c then x else s.state r }

/-- `state = CD_STATE_LINKAGE_ERROR; linkage_error = thread->current_exception`. -/
def recordLinkageError (s : Vm) (t : ℕ) (r : ClassRef) : Vm :=
  { s with
    state := update s.state r .linkageError
    linkageError := update s.linkageError r (s.currentException t)
    failure := update s.failure r (some .link) }

def raise (s : Vm) (t : ℕ) (e : Throwable) : Vm :=
  { s with currentException := update s.currentException t (some e) }

end Vm

def linkAll (link : Vm → ClassRef → ℤ × Vm) : Vm → List ClassRef → ℤ × Vm
  | s, [] => (0, s)
  | s, p :: ps =>
      let r := link s p
      if r.1 ≠ 0 then r else linkAll link r.2 ps

/-- `link_array_class`, over the `link_class` it calls for the base component. -/
def linkArrayClass (H : Hierarchy) (link : Vm → ClassRef → ℤ × Vm) (s : Vm)
    (r : ClassRef) : ℤ × Vm :=
  if ClassState.linked.rank ≤ (s.state r).rank then (0, s)
  else
    let s := s.setState r .linked
    match H.baseComponent r with
    | none => (0, s)
    | some b =>
        let l := link s b
        let st := if l.1 ≠ 0 then ClassState.linkageError else .linked
        let s := l.2.setArrayStates b.base st
        (l.1, if l.1 ≠ 0 then { s with failure := update s.failure r (some .link) } else s)

/-- The body of `link_class` for a class in state `loaded`, over the `link_class` that it
calls recursively. -/
def linkLoaded (H : Hierarchy) (t : ℕ) (link : Vm → ClassRef → ℤ × Vm) (s : Vm)
    (r : ClassRef) : ℤ × Vm :=
  let l := linkAll link s (H.supers r)
  if l.1 ≠ 0 then (l.1, l.2.recordLinkageError t r)
  else if H.kind r ≠ .ordinary then linkArrayClass H link l.2 r
  else
    let s := l.2.setState r .linked
    let s := if s.arrayDims r.base = 0 then s else (linkArrayClass H link s ⟨r.base, 1⟩).2
    if H.verifies r.base then (0, s)
    else (-1, (s.raise t .verifyError).recordLinkageError t r)

/-- `link_class` with a bound on the nesting of calls. -/
def linkClassAux (H : Hierarchy) (t : ℕ) : ℕ → Vm → ClassRef → ℤ × Vm
  | 0, s, _ => (0, s)
  | depth + 1, s, r =>
      if s.state r ≠ .loaded then (0, s) else linkLoaded H t (linkClassAux H t depth) s r

/-- `link_class`; `linkClass_eq` shows that the bound never cuts a call short. -/
def linkClass (H : Hierarchy) (t : ℕ) (s : Vm) (r : ClassRef) : ℤ × Vm :=
  linkClassAux H t (H.linkDepth r) s r

variable {H : Hierarchy} {r : ClassRef} {s : Vm}

theorem linkClassAux_of_ne_loaded {t d : ℕ}
    (h : s.state r ≠ .loaded) : linkClassAux H t d s r = (0, s) := by
  cases d with
  | zero => rfl
  | succ d => simp only [linkClassAux, if_pos h]

theorem linkClass_of_ne_loaded {t : ℕ} (h : s.state r ≠ .loaded) : linkClass H t s r = (0, s) :=
  linkClassAux_of_ne_loaded h

namespace Hierarchy

variable (H : Hierarchy)

/-- An exclusive bound on the base classes that linking `r` can touch. -/
def span (r : ClassRef) : ℕ :=
  if r.dims = 0 then r.base + 1 else max r.base (max H.object (max H.cloneable H.serializable)) + 1

theorem dims_of_kind_ordinary {r : ClassRef} (h : H.kind r = .ordinary) : r.dims = 0 := by
  unfold kind at h
  split at h <;> simp_all

theorem supers_dims {r p : ClassRef} (hp : p ∈ H.supers r) : p.dims = 0 := by
  unfold supers at hp
  split at hp
  · obtain ⟨q, -, rfl⟩ := mem_map.mp hp
    rfl
  · simp only [mem_cons, not_mem_nil, or_false] at hp
    rcases hp with rfl | rfl | rfl <;> rfl

theorem supers_base_lt {r p : ClassRef} (hp : p ∈ H.supers r) (hr : r.dims = 0) :
    p.base < r.base := by
  rw [supers, if_pos hr] at hp
  obtain ⟨q, hq, rfl⟩ := mem_map.mp hp
  rcases mem_append.mp hq with h | h
  · exact H.super_lt (Option.mem_toList.mp h)
  · exact H.interfaces_lt h

theorem supers_base_lt_span {r p : ClassRef} (hp : p ∈ H.supers r) : p.base < H.span r := by
  by_cases hr : r.dims = 0
  · have h := H.supers_base_lt hp hr
    simp only [span, hr, if_true]
    omega
  · simp only [supers, hr, if_false, mem_cons, not_mem_nil, or_false] at hp
    simp only [span, hr, if_false]
    rcases hp with rfl | rfl | rfl <;> dsimp only <;> omega

end Hierarchy

/-- What linking can change when it touches base classes below `n` only: such a class leaves
`loaded` for `linked` or a recorded failure, and nothing but array classes is rewritten later. -/
structure LinkFrame (H : Hierarchy) (n : ℕ) (s s' : Vm) : Prop where
  calls : s'.calls = s.calls
  initializingThread : s'.initializingThread = s.initializingThread
  clinitStarts : s'.clinitStarts = s.clinitStarts
  arrayDims : s'.arrayDims = s.arrayDims
  untouched : ∀ c, n ≤ c → s'.state ⟨c, 0⟩ = s.state ⟨c, 0⟩ ∧ s'.failure ⟨c, 0⟩ = s.failure ⟨c, 0⟩
  settled : ∀ c, s.state ⟨c, 0⟩ ≠ .loaded →
    s'.state ⟨c, 0⟩ = s.state ⟨c, 0⟩ ∧ s'.failure ⟨c, 0⟩ = s.failure ⟨c, 0⟩
  fromLoaded : ∀ c, s.state ⟨c, 0⟩ = .loaded →
    s'.state ⟨c, 0⟩ = .loaded ∨ s'.state ⟨c, 0⟩ = .linked ∨
      s'.state ⟨c, 0⟩ = .linkageError ∧ s'.failure ⟨c, 0⟩ ≠ none
  arrays : ∀ r, s.state r ≠ .loaded → s'.state r ≠ .loaded
  primitive : ∀ r, H.isPrimitive r.base → s.state r = .initialized → s'.state r = .initialized
  failure : ∀ r, s'.failure r = s.failure r ∨ s'.failure r = some .link ∧
    s'.state r ≠ .loaded ∧ (r.dims = 0 → s'.state r = .linkageError)

namespace LinkFrame

variable {H : Hierarchy}

theorem refl (n : ℕ) (s : Vm) : LinkFrame H n s s where
  calls := rfl
  initializingThread := rfl
  clinitStarts := rfl
  arrayDims := rfl
  untouched _ _ := ⟨rfl, rfl⟩
  settled _ _ := ⟨rfl, rfl⟩
  fromLoaded _ h := .inl h
  arrays _ h := h
  primitive _ _ h := h
  failure _ := .inl rfl

theorem trans {n : ℕ} {s s' s'' : Vm} (h : LinkFrame H n s s') (k : LinkFrame H n s' s'') :
    LinkFrame H n s s'' where
  calls := k.calls.trans h.calls
  initializingThread := k.initializingThread.trans h.initializingThread
  clinitStarts := k.clinitStarts.trans h.clinitStarts
  arrayDims := k.arrayDims.trans h.arrayDims
  untouched c hc :=
    ⟨(k.untouched c hc).1.trans (h.untouched c hc).1,
      (k.untouched c hc).2.trans (h.untouched c hc).2⟩
  settled c hc := by
    have h1 := h.settled c hc
    have h2 := k.settled c (by rw [h1.1]; exact hc)
    exact ⟨h2.1.trans h1.1, h2.2.trans h1.2⟩
  fromLoaded c hc := by
    rcases h.fromLoaded c hc with h1 | h1 | ⟨h1, hf⟩
    · exact k.fromLoaded c h1
    · have h2 := k.settled c (by simp [h1])
      exact .inr (.inl (h2.1.trans h1))
    · have h2 := k.settled c (by simp [h1])
      exact .inr (.inr ⟨h2.1.trans h1, by rw [h2.2]; exact hf⟩)
  arrays r hr := k.arrays r (h.arrays r hr)
  primitive r hp hr := k.primitive r hp (h.primitive r hp hr)
  failure r := by
    rcases k.failure r with h2 | h2
    · rcases h.failure r with h1 | ⟨h1, hl, hd⟩
      · exact .inl (h2.trans h1)
      · refine .inr ⟨h2.trans h1, k.arrays r hl, fun h0 => ?_⟩
        obtain ⟨c, d⟩ := r
        obtain rfl : d = 0 := h0
        exact (k.settled c hl).1.trans (hd rfl)
    · exact .inr h2

/-- Entering `linked` from `loaded`, or any rewrite of an array class. -/
theorem setLinked {n : ℕ} {s : Vm} {r : ClassRef} (hi : s.state r ≠ .initialized)
    (h : r.dims ≠ 0 ∨ s.state r = .loaded ∧ r.base < n) :
    LinkFrame H n s (s.setState r .linked) where
  calls := rfl
  initializingThread := rfl
  clinitStarts := rfl
  arrayDims := rfl
  untouched c hc := by
    refine ⟨?_, rfl⟩
    have hne : (⟨c, 0⟩ : ClassRef) ≠ r := by
      rintro rfl
      rcases h with h | h
      · exact h rfl
      · exact absurd h.2 (by dsimp only; omega)
    simp [Vm.setState, hne]
  settled c hc := by
    refine ⟨?_, rfl⟩
    have hne : (⟨c, 0⟩ : ClassRef) ≠ r := by
      rintro rfl
      rcases h with h | h
      · exact h rfl
      · exact hc h.1
    simp [Vm.setState, hne]
  fromLoaded c hc := by
    by_cases hcr : (⟨c, 0⟩ : ClassRef) = r
    · subst hcr
      exact .inr (.inl (by simp [Vm.setState]))
    · exact .inl (by simp [Vm.setState, hcr, hc])
  arrays q hq := by
    by_cases hqr : q = r
    · subst hqr
      simp [Vm.setState]
    · simpa [Vm.setState, hqr] using hq
  primitive q _ hq := by
    have hqr : q ≠ r := by rintro rfl; exact hi hq
    simpa [Vm.setState, hqr] using hq
  failure _ := .inl rfl

theorem setArrayStates {n : ℕ} {s : Vm} {c : ℕ} {x : ClassState} (hx : x ≠ .loaded)
    (hc : H.isPrimitive c = false) :
    LinkFrame H n s (s.setArrayStates c x) where
  calls := rfl
  initializingThread := rfl
  clinitStarts := rfl
  arrayDims := rfl
  untouched _ _ := ⟨by simp [Vm.setArrayStates], rfl⟩
  settled _ _ := ⟨by simp [Vm.setArrayStates], rfl⟩
  fromLoaded _ h := .inl (by simpa [Vm.setArrayStates] using h)
  arrays r hr := by
    unfold Vm.setArrayStates
    dsimp only
    split
    · exact hx
    · exact hr
  primitive r hp hr := by
    have hne : r.base ≠ c := by rintro rfl; simp [hc] at hp
    simpa [Vm.setArrayStates, hne] using hr
  failure _ := .inl rfl

theorem failArray {n : ℕ} {s : Vm} {r : ClassRef} (hd : r.dims ≠ 0) (hr : s.state r ≠ .loaded) :
    LinkFrame H n s { s with failure := update s.failure r (some .link) } where
  calls := rfl
  initializingThread := rfl
  clinitStarts := rfl
  arrayDims := rfl
  untouched c _ := by
    have hne : (⟨c, 0⟩ : ClassRef) ≠ r := by rintro rfl; exact hd rfl
    simp [hne]
  settled c _ := by
    have hne : (⟨c, 0⟩ : ClassRef) ≠ r := by rintro rfl; exact hd rfl
    simp [hne]
  fromLoaded _ h := .inl h
  arrays _ h := h
  primitive _ _ h := h
  failure q := by
    by_cases hqr : q = r
    · subst hqr
      exact .inr ⟨by simp, hr, fun h0 => absurd h0 hd⟩
    · exact .inl (by simp [hqr])

theorem raise {n : ℕ} {s s' : Vm} (h : LinkFrame H n s s') (t : ℕ) (e : Throwable) :
    LinkFrame H n s (s'.raise t e) :=
  { h with }

/-- A class that was `loaded` when linking began may end as a recorded linkage error. -/
theorem recordLinkageError {n : ℕ} {s s' : Vm} (h : LinkFrame H n s s') (t : ℕ) {r : ClassRef}
    (hr : s.state r = .loaded) (hn : r.dims = 0 → r.base < n) :
    LinkFrame H n s (s'.recordLinkageError t r) :=
  { h with
    untouched c hc := by
      have hne : (⟨c, 0⟩ : ClassRef) ≠ r := by
        rintro rfl
        exact absurd (hn rfl) (by dsimp only; omega)
      simpa [Vm.recordLinkageError, hne] using h.untouched c hc
    settled c hc := by
      have hne : (⟨c, 0⟩ : ClassRef) ≠ r := by rintro rfl; exact hc hr
      simpa [Vm.recordLinkageError, hne] using h.settled c hc
    fromLoaded c hc := by
      by_cases hcr : (⟨c, 0⟩ : ClassRef) = r
      · subst hcr
        exact .inr (.inr (by simp [Vm.recordLinkageError]))
      · simpa [Vm.recordLinkageError, hcr] using h.fromLoaded c hc
    arrays q hq := by
      have hqr : q ≠ r := by rintro rfl; exact hq hr
      simpa [Vm.recordLinkageError, hqr] using h.arrays q hq
    primitive q hp hq := by
      have hqr : q ≠ r := by rintro rfl; simp [hr] at hq
      simpa [Vm.recordLinkageError, hqr] using h.primitive q hp hq
    failure q := by
      by_cases hqr : q = r
      · subst hqr
        exact .inr (by simp [Vm.recordLinkageError])
      · simpa [Vm.recordLinkageError, hqr] using h.failure q }

end LinkFrame

variable {link : Vm → ClassRef → ℤ × Vm}

theorem linkAll_frame {n : ℕ} {ps : List ClassRef}
    (hlink : ∀ s, ∀ p ∈ ps, LinkFrame H n s (link s p).2) (s : Vm) :
    LinkFrame H n s (linkAll link s ps).2 := by
  induction ps generalizing s with
  | nil => exact .refl n s
  | cons p ps ih =>
    have hp := hlink s p (by simp)
    simp only [linkAll]
    split
    · exact hp
    · exact hp.trans (ih (fun s q hq => hlink s q (by simp [hq])) _)

theorem baseComponent_eq {r b : ClassRef} (h : H.baseComponent r = some b) :
    b = ⟨r.base, 0⟩ ∧ r.dims ≠ 0 ∧ H.isPrimitive r.base = false := by
  unfold Hierarchy.baseComponent at h
  split at h
  · cases h
  · rename_i hr
    cases h
    simpa using hr

theorem linkArrayClass_frame {n : ℕ} (hr : r.dims ≠ 0 ∨ s.state r = .loaded ∧ r.base < n)
    (hlink : ∀ s, ∀ b, H.baseComponent r = some b → LinkFrame H n s (link s b).2) :
    LinkFrame H n s (linkArrayClass H link s r).2 := by
  unfold linkArrayClass
  split
  · exact .refl n s
  · rename_i hrank
    have hi : s.state r ≠ .initialized := by
      intro hi
      simp [hi, ClassState.rank] at hrank
    have hset := LinkFrame.setLinked (H := H) hi hr
    cases hb : H.baseComponent r with
    | none => exact hset
    | some b =>
      obtain ⟨hbr, hd, hp⟩ := baseComponent_eq hb
      have hpb : H.isPrimitive b.base = false := by rw [hbr]; exact hp
      have hl := hlink (s.setState r .linked) b hb
      have hne : (s.setState r .linked).state r ≠ .loaded := by simp [Vm.setState]
      dsimp only
      split
      · have hall := hl.trans (.setArrayStates (x := .linkageError) (by simp) hpb)
        exact (hset.trans hall).trans (.failArray hd (hall.arrays r hne))
      · exact hset.trans (hl.trans (.setArrayStates (by simp) hpb))

theorem linkLoaded_frame {t n : ℕ} (hl : s.state r = .loaded) (hn : H.span r ≤ n)
    (hlink : ∀ s m p, p.dims = 0 → p.base < m → LinkFrame H m s (link s p).2) :
    LinkFrame H n s (linkLoaded H t link s r).2 := by
  have hbase : r.base < n := by
    unfold Hierarchy.span at hn
    split at hn <;> omega
  have hsup : ∀ m, (∀ p ∈ H.supers r, p.base < m) → LinkFrame H m s (linkAll link s (H.supers r)).2 :=
    fun m hm => linkAll_frame (fun s p hp => hlink s m p (H.supers_dims hp) (hm p hp)) s
  have hsupn := hsup n fun p hp => (H.supers_base_lt_span hp).trans_le hn
  have hkeep : r.dims ≠ 0 ∨ (linkAll link s (H.supers r)).2.state r = .loaded ∧ r.base < n := by
    by_cases h0 : r.dims = 0
    · have hu := (hsup r.base fun p hp => H.supers_base_lt hp h0).untouched r.base le_rfl
      obtain ⟨c, k⟩ := r
      obtain rfl : k = 0 := h0
      exact .inr ⟨hu.1.trans hl, hbase⟩
    · exact .inl h0
  have hcomp : ∀ q b s, q.base = r.base → H.baseComponent q = some b →
      LinkFrame H n s (link s b).2 := by
    intro q b s hq hb
    obtain ⟨rfl, -⟩ := baseComponent_eq hb
    exact hlink s n _ rfl (by dsimp only; omega)
  unfold linkLoaded
  dsimp only
  split
  · exact hsupn.recordLinkageError t hl fun _ => hbase
  · split
    · exact hsupn.trans (linkArrayClass_frame hkeep fun s b hb => hcomp r b s rfl hb)
    · rename_i hk
      have h0 := H.dims_of_kind_ordinary (not_not.mp hk)
      have hstill := (hkeep.resolve_left (not_not.mpr h0)).1
      have hlinked := hsupn.trans (.setLinked (by simp [hstill]) hkeep)
      have harr : LinkFrame H n s (if ((linkAll link s (H.supers r)).2.setState r .linked).arrayDims
          r.base = 0 then (linkAll link s (H.supers r)).2.setState r .linked
          else (linkArrayClass H link ((linkAll link s (H.supers r)).2.setState r .linked)
            ⟨r.base, 1⟩).2) := by
        split
        · exact hlinked
        · exact hlinked.trans
            (linkArrayClass_frame (.inl (by simp)) fun s b hb => hcomp ⟨r.base, 1⟩ b s rfl hb)
      split
      · exact harr
      · exact (harr.raise t .verifyError).recordLinkageError t hl fun _ => hbase

theorem linkClassAux_frame (H : Hierarchy) (t d n : ℕ) (s : Vm) (r : ClassRef)
    (hn : H.span r ≤ n) : LinkFrame H n s (linkClassAux H t d s r).2 := by
  induction d generalizing n s r with
  | zero => exact .refl n s
  | succ d ih =>
    simp only [linkClassAux]
    split
    · exact .refl n s
    · rename_i hl
      refine linkLoaded_frame (not_not.mp hl) hn fun s m p h0 hp => ih m s p ?_
      simp only [Hierarchy.span, h0, if_true]
      exact hp

theorem linkClass_frame (H : Hierarchy) (t : ℕ) (s : Vm) (r : ClassRef) :
    LinkFrame H (H.span r) s (linkClass H t s r).2 :=
  linkClassAux_frame H t _ _ s r le_rfl

theorem linkDepth_pos (H : Hierarchy) (r : ClassRef) : 0 < H.linkDepth r := by
  unfold Hierarchy.linkDepth
  split <;> omega

theorem linkDepth_supers_lt {r p : ClassRef} (hp : p ∈ H.supers r) :
    H.linkDepth p < H.linkDepth r := by
  have hdims := H.supers_dims hp
  by_cases h0 : r.dims = 0
  · have hlt := H.supers_base_lt hp h0
    simp only [Hierarchy.linkDepth, hdims, h0, if_true]
    omega
  · have hlt := H.supers_base_lt_span hp
    simp only [Hierarchy.span, h0, if_false] at hlt
    simp only [Hierarchy.linkDepth, hdims, h0, if_true, if_false]
    omega

theorem linkDepth_base_lt (h0 : r.dims ≠ 0) : H.linkDepth ⟨r.base, 0⟩ < H.linkDepth r := by
  simp only [Hierarchy.linkDepth, h0, if_true, if_false]
  omega

/-- An ordinary class that fails to link is left in the error state. -/
theorem linkClass_failed {t : ℕ} (h0 : r.dims = 0)
    (h : (linkClass H t s r).1 ≠ 0) : (linkClass H t s r).2.state r = .linkageError := by
  obtain ⟨d, hd⟩ : ∃ d, H.linkDepth r = d + 1 :=
    ⟨H.linkDepth r - 1, by have := linkDepth_pos H r; omega⟩
  unfold linkClass at h ⊢
  rw [hd] at h ⊢
  simp only [linkClassAux] at h ⊢
  split at h
  · exact absurd rfl h
  · rename_i hl
    rw [if_neg hl]
    unfold linkLoaded at h ⊢
    dsimp only at h ⊢
    split at h
    · rename_i hs
      simp [hs, Vm.recordLinkageError]
    · rename_i hs
      rw [if_neg hs]
      split at h
      · exfalso
        have hb : H.baseComponent r = none := by simp [Hierarchy.baseComponent, h0]
        unfold linkArrayClass at h
        rw [hb] at h
        split at h <;> exact h rfl
      · rename_i hk
        rw [if_neg hk]
        split at h
        · exact absurd rfl h
        · rename_i hv
          rw [if_neg hv]
          simp [Vm.recordLinkageError]

theorem linkAll_failure {l : List ClassRef} {q : ClassRef}
    (hlink : ∀ s, ∀ p ∈ l, (link s p).2.failure q = s.failure q) (s : Vm) :
    (linkAll link s l).2.failure q = s.failure q := by
  induction l generalizing s with
  | nil => rfl
  | cons p l ih =>
    have hp := hlink s p (by simp)
    simp only [linkAll]
    split
    · exact hp
    · exact (ih (fun s p hp => hlink s p (by simp [hp])) _).trans hp

theorem linkArrayClass_failure
    {r q : ClassRef} (hlink : ∀ s b, b.dims = 0 → (link s b).2.failure q = s.failure q)
    (hq : q ≠ r ∨ (link (s.setState r .linked) ⟨r.base, 0⟩).1 = 0) :
    (linkArrayClass H link s r).2.failure q = s.failure q := by
  unfold linkArrayClass
  split
  · rfl
  · cases hb : H.baseComponent r with
    | none => rfl
    | some b =>
      obtain ⟨rfl, -⟩ := baseComponent_eq hb
      have hl := hlink (s.setState r .linked) ⟨r.base, 0⟩ rfl
      dsimp only
      split
      · rename_i hne
        have hqr := hq.resolve_right hne
        simpa [Vm.setArrayStates, Vm.setState, hqr] using hl
      · exact hl

/-- Linking a class records no failure of an array class other than its own. -/
theorem linkClass_failure_array {t : ℕ} {r q : ClassRef}
    (hq : q.dims ≠ 0) (hqr : q ≠ r) : (linkClass H t s r).2.failure q = s.failure q := by
  unfold linkClass
  generalize H.linkDepth r = d
  induction d generalizing s r with
  | zero => rfl
  | succ d ih =>
    have hbase : ∀ s b, b.dims = 0 → (linkClassAux H t d s b).2.failure q = s.failure q := by
      intro s b hb
      exact ih (by rintro rfl; exact hq hb)
    have hall := linkAll_failure (q := q) (l := H.supers r)
      (fun s p hp => hbase s p (H.supers_dims hp)) s
    simp only [linkClassAux]
    split
    · rfl
    · unfold linkLoaded
      dsimp only
      split
      · simpa [Vm.recordLinkageError, hqr] using hall
      · split
        · exact (linkArrayClass_failure hbase (.inl hqr)).trans hall
        · rename_i hk
          have h0 := H.dims_of_kind_ordinary (not_not.mp hk)
          have harr : (if ((linkAll (linkClassAux H t d) s (H.supers r)).2.setState r
              .linked).arrayDims r.base = 0 then
                (linkAll (linkClassAux H t d) s (H.supers r)).2.setState r .linked
              else (linkArrayClass H (linkClassAux H t d)
                ((linkAll (linkClassAux H t d) s (H.supers r)).2.setState r .linked)
                ⟨r.base, 1⟩).2).failure q = s.failure q := by
            split
            · exact hall
            · refine (linkArrayClass_failure hbase (.inr ?_)).trans hall
              rw [linkClassAux_of_ne_loaded]
              obtain ⟨c, k⟩ := r
              obtain rfl : k = 0 := h0
              simp [Vm.setState]
          split
          · exact harr
          · simpa [Vm.recordLinkageError, Vm.raise, hqr] using harr

end TraceJvm
