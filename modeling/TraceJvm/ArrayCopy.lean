import TraceJvm.InstanceOf

/-! `System.arraycopy` over the objects of the heap. An element of an array of references is the
address of an object or 0, which is null; elements are moved whole. -/
namespace TraceJvm

open Transition List

namespace TypeWorld

structure ArrayHeap (W : TypeWorld) where
  classOf : ℕ → ClassRef
  notPrimitive : ∀ a, W.kind (classOf a) ≠ .primitive
  elements : ℕ → List ℕ

/-- The arguments of `arraycopy`. -/
structure CopyCall where
  src : ℕ
  srcPos : Int32
  dest : ℕ
  destPos : Int32
  length : Int32

/-- The class and message of the exception that is raised, the number of elements that have been
copied, and the elements of all arrays afterwards. -/
structure CopyOutcome where
  exception : Option (String × Option String)
  copied : ℕ
  elements : ℕ → List ℕ

def slice (xs : List ℕ) (pos n : ℕ) : List ℕ := (xs.drop pos).take n

/-- The list with `xs` stored from a position on. -/
def overwrite (ys : List ℕ) (pos : ℕ) (xs : List ℕ) : List ℕ :=
  ys.take pos ++ xs ++ ys.drop (pos + xs.length)

variable {W : TypeWorld}

/-- `one_fewer_dim` of an array class. -/
def componentType (r : ClassRef) : ClassRef := (oneFewerDim r).getD r

def is1DPrimitiveArray (W : TypeWorld) (r : ClassRef) : Bool :=
  W.kind r = .primitiveArray && r.dims = 1

namespace ArrayHeap

variable (h : W.ArrayHeap)

def raise (exception : String) (message : Option String) : CopyOutcome :=
  ⟨some (exception, message), 0, h.elements⟩

/-- The elements of all arrays once the first `n` elements have been copied. -/
def copyPrefix (c : CopyCall) (n : ℕ) : ℕ → List ℕ :=
  Function.update h.elements c.dest (overwrite (h.elements c.dest) c.destPos.toInt.toNat
    (slice (h.elements c.src) c.srcPos.toInt.toNat n))

/-- `memmove` -/
def moveAll (c : CopyCall) : CopyOutcome :=
  ⟨none, c.length.toInt.toNat, h.copyPrefix c c.length.toInt.toNat⟩

/-- The loop over the elements from `i` on, with `n` of them left. -/
def copyLoop (s : TypeVm) (c : CopyCall) : ℕ → ℕ → (ℕ → List ℕ) → Option CopyOutcome
  | 0, i, elements => some ⟨none, i, elements⟩
  | n + 1, i, elements =>
    let srcElem := ((elements c.src)[c.srcPos.toInt.toNat + i]?).getD 0
    let stored := Function.update elements c.dest
      ((elements c.dest).set (c.destPos.toInt.toNat + i) srcElem)
    if srcElem = 0 then copyLoop s c n (i + 1) stored
    else
      match W.instanceof s (h.classOf srcElem) (componentType (h.classOf c.dest)) with
      | none => none
      | some true => copyLoop s c n (i + 1) stored
      | some false =>
        some ⟨some ("java/lang/ArrayStoreException",
          some "source and destination are not compatible"), i, elements⟩

def outside (c : CopyCall) : Bool :=
  c.srcPos < 0 || c.destPos < 0 || c.length < 0 ||
    ((h.elements c.src).length : ℤ) < c.srcPos.toInt + c.length.toInt ||
    ((h.elements c.dest).length : ℤ) < c.destPos.toInt + c.length.toInt

/-- `System.arraycopy`, without a result where `instanceof` reads outside a display. -/
def arraycopy (s : TypeVm) (c : CopyCall) : Option CopyOutcome :=
  let src := h.classOf c.src
  let dest := h.classOf c.dest
  if c.src = 0 ∨ c.dest = 0 then some (h.raise "java/lang/NullPointerException" none)
  else if W.kind src = .ordinary then
    some (h.raise "java/lang/ArrayStoreException" (some "source is not an array"))
  else if W.kind dest = .ordinary then
    some (h.raise "java/lang/ArrayStoreException" (some "destination is not an array"))
  else if W.is1DPrimitiveArray src ≠ W.is1DPrimitiveArray dest ∨
      (W.is1DPrimitiveArray src ∧ W.primitiveComponent src ≠ W.primitiveComponent dest) then
    some (h.raise "java/lang/ArrayStoreException"
      (some "source and destination are not compatible"))
  else if h.outside c then some (h.raise "java/lang/ArrayIndexOutOfBoundsException" none)
  else if W.is1DPrimitiveArray src then some (h.moveAll c)
  else
    match W.instanceof s (componentType src) (componentType dest) with
    | none => none
    | some true => some (h.moveAll c)
    | some false => h.copyLoop s c c.length.toInt.toNat 0 h.elements

/-! ### The specification -/

/-- The two are arrays, and if one has components of a primitive type, so has the other. -/
def Compatible (c : CopyCall) : Prop :=
  let src := h.classOf c.src
  let dest := h.classOf c.dest
  0 < src.dims ∧ 0 < dest.dims ∧
    (W.kind (componentType src) = .primitive ∨ W.kind (componentType dest) = .primitive →
      componentType src = componentType dest)

def InBounds (c : CopyCall) : Prop :=
  0 ≤ c.srcPos.toInt ∧ 0 ≤ c.destPos.toInt ∧ 0 ≤ c.length.toInt ∧
    c.srcPos.toInt + c.length.toInt ≤ (h.elements c.src).length ∧
    c.destPos.toInt + c.length.toInt ≤ (h.elements c.dest).length

/-- The element that is copied as the `i`-th one. -/
def element (c : CopyCall) (i : ℕ) : ℕ :=
  ((h.elements c.src)[c.srcPos.toInt.toNat + i]?).getD 0

/-- The `i`-th element can be stored into the destination. -/
def Assignable (c : CopyCall) (i : ℕ) : Prop :=
  W.kind (componentType (h.classOf c.dest)) = .primitive ∨ h.element c i = 0 ∨
    W.RuntimeSubtype (h.classOf (h.element c i)) (componentType (h.classOf c.dest))

/-- What `System.arraycopy` is specified to do; the messages are left open. -/
inductive Specified (c : CopyCall) (out : CopyOutcome) : Prop where
  | nullPointer (hnull : c.src = 0 ∨ c.dest = 0)
    (hout : ∃ message, out = h.raise "java/lang/NullPointerException" message)
  | arrayStore (hnull : ¬ (c.src = 0 ∨ c.dest = 0)) (hkinds : ¬ h.Compatible c)
    (hout : ∃ message, out = h.raise "java/lang/ArrayStoreException" message)
  | outOfBounds (hnull : ¬ (c.src = 0 ∨ c.dest = 0)) (hkinds : h.Compatible c)
    (hbounds : ¬ h.InBounds c)
    (hout : ∃ message, out = h.raise "java/lang/ArrayIndexOutOfBoundsException" message)
  | copied (hnull : ¬ (c.src = 0 ∨ c.dest = 0)) (hkinds : h.Compatible c) (hbounds : h.InBounds c)
    (hall : ∀ i < c.length.toInt.toNat, h.Assignable c i)
    (hout : out = ⟨none, c.length.toInt.toNat, h.copyPrefix c c.length.toInt.toNat⟩)
  | stopped (hnull : ¬ (c.src = 0 ∨ c.dest = 0)) (hkinds : h.Compatible c) (hbounds : h.InBounds c)
    (i : ℕ) (hi : i < c.length.toInt.toNat) (hbefore : ∀ j < i, h.Assignable c j)
    (hfirst : ¬ h.Assignable c i)
    (hout : ∃ message, out =
      ⟨some ("java/lang/ArrayStoreException", message), i, h.copyPrefix c i⟩)

/-- `arraycopy` does what is specified. -/
def CopiedRight (s : TypeVm) (c : CopyCall) : Prop :=
  ∃ out, h.arraycopy s c = some out ∧ h.Specified c out

/-- `instanceof` is right about the `i`-th element. -/
def ElementDecided (s : TypeVm) (c : CopyCall) (i : ℕ) : Prop :=
  h.element c i ≠ 0 →
    Answers (W.instanceof s (h.classOf (h.element c i)) (componentType (h.classOf c.dest)))
      (W.RuntimeSubtype (h.classOf (h.element c i)) (componentType (h.classOf c.dest)))

/-- The answer of `instanceof` about the component types is good enough: where it finds that of the
source to be below that of the destination, all elements can be stored; where it does not, it is
right about the elements up to the first that cannot. -/
def AnswerSuffices (s : TypeVm) (c : CopyCall) : Option Bool → Prop
  | none => False
  | some true => ∀ i < c.length.toInt.toNat, h.Assignable c i
  | some false => ∀ i < c.length.toInt.toNat, (∀ j < i, h.Assignable c j) → h.ElementDecided s c i

/-- The call fails a check, copies between arrays of primitive types, or gets good answers. -/
def CopyDecided (s : TypeVm) (c : CopyCall) : Prop :=
  ¬ (c.src = 0 ∨ c.dest = 0) → h.Compatible c → h.InBounds c →
    W.kind (componentType (h.classOf c.dest)) ≠ .primitive →
      h.AnswerSuffices s c
        (W.instanceof s (componentType (h.classOf c.src)) (componentType (h.classOf c.dest)))

end ArrayHeap

/-! ### The checks -/

@[simp] theorem componentType_succ (a d : ℕ) : componentType ⟨a, d + 1⟩ = ⟨a, d⟩ := rfl

theorem is1DPrimitiveArray_iff {r : ClassRef} (hdims : 0 < r.dims) :
    W.is1DPrimitiveArray r = true ↔ W.kind (componentType r) = .primitive := by
  obtain ⟨a, d⟩ := r
  obtain ⟨d, rfl⟩ := Nat.exists_eq_add_of_lt hdims
  rw [Nat.zero_add, componentType_succ, kind_eq_primitive]
  unfold is1DPrimitiveArray Hierarchy.kind
  cases W.isPrimitive a <;> cases d <;> simp

theorem dims_pos_iff {r : ClassRef} (hr : W.kind r ≠ .primitive) :
    0 < r.dims ↔ W.kind r ≠ .ordinary := by
  rw [ne_eq, kind_eq_ordinary]
  rw [ne_eq, kind_eq_primitive] at hr
  constructor
  · rintro hdims ⟨-, hzero⟩
    omega
  · intro h
    by_contra hzero
    have hzero : r.dims = 0 := by omega
    cases hp : W.isPrimitive r.base with
    | false => exact h ⟨hp, hzero⟩
    | true => exact hr ⟨hp, hzero⟩

/-- Arrays of primitive types have the same components if `primitive_component` agrees. -/
theorem primitiveComponent_eq_iff {r r' : ClassRef} (hr : W.is1DPrimitiveArray r = true)
    (hr' : W.is1DPrimitiveArray r' = true) :
    W.primitiveComponent r = W.primitiveComponent r' ↔ componentType r = componentType r' := by
  have hparts {r : ClassRef} (hr : W.is1DPrimitiveArray r = true) :
      W.isPrimitive r.base = true ∧ r.dims = 1 := by
    unfold is1DPrimitiveArray at hr
    obtain ⟨hkind, hdims⟩ := Bool.and_eq_true_iff.mp hr
    have hdims := of_decide_eq_true hdims
    refine ⟨?_, hdims⟩
    by_contra hp
    have hkind := of_decide_eq_true hkind
    unfold Hierarchy.kind at hkind
    simp [hp, hdims] at hkind
  obtain ⟨hp, hdims⟩ := hparts hr
  obtain ⟨hp', hdims'⟩ := hparts hr'
  obtain ⟨a, d⟩ := r
  obtain ⟨b, e⟩ := r'
  dsimp only at hp hdims hp' hdims'
  subst hdims hdims'
  unfold primitiveComponent
  simp only [hp, hp', if_true]
  constructor
  · intro heq
    rw [W.primitive_unique hp hp' heq]
  · intro heq
    cases heq
    rfl

theorem is1DPrimitiveArray_congr {r r' : ClassRef} (hdims : 0 < r.dims) (hdims' : 0 < r'.dims)
    (heq : componentType r = componentType r') :
    W.is1DPrimitiveArray r = W.is1DPrimitiveArray r' := by
  rw [Bool.eq_iff_iff, is1DPrimitiveArray_iff hdims, is1DPrimitiveArray_iff hdims', heq]

namespace ArrayHeap

variable (h : W.ArrayHeap)

theorem compatible_iff (c : CopyCall) :
    h.Compatible c ↔ W.kind (h.classOf c.src) ≠ .ordinary ∧ W.kind (h.classOf c.dest) ≠ .ordinary ∧
      ¬ (W.is1DPrimitiveArray (h.classOf c.src) ≠ W.is1DPrimitiveArray (h.classOf c.dest) ∨
        (W.is1DPrimitiveArray (h.classOf c.src) = true ∧
          W.primitiveComponent (h.classOf c.src) ≠ W.primitiveComponent (h.classOf c.dest))) := by
  unfold Compatible
  dsimp only
  rw [← dims_pos_iff (h.notPrimitive c.src), ← dims_pos_iff (h.notPrimitive c.dest)]
  apply and_congr_right
  intro hsrc
  apply and_congr_right
  intro hdest
  rw [← is1DPrimitiveArray_iff hsrc, ← is1DPrimitiveArray_iff hdest]
  by_cases heq : W.is1DPrimitiveArray (h.classOf c.src) = W.is1DPrimitiveArray (h.classOf c.dest)
  · cases hs : W.is1DPrimitiveArray (h.classOf c.src) with
    | false =>
      rw [hs] at heq
      simp [← heq]
    | true =>
      have hd := heq.symm.trans hs
      have hcomponents := primitiveComponent_eq_iff hs hd
      simp [hd, hcomponents]
  · have hne : componentType (h.classOf c.src) ≠ componentType (h.classOf c.dest) :=
      fun he => heq (is1DPrimitiveArray_congr hsrc hdest he)
    apply iff_of_false
    · intro himp
      cases hs : W.is1DPrimitiveArray (h.classOf c.src) with
      | true => exact hne (himp (.inl hs))
      | false =>
        rw [hs] at heq
        exact hne (himp (.inr ((Bool.not_eq_false _).mp fun hd => heq hd.symm)))
    · exact fun hchecks => hchecks (.inl heq)

theorem outside_eq_false {c : CopyCall} : h.outside c = false ↔ h.InBounds c := by
  unfold outside InBounds
  simp only [Bool.or_eq_false_iff, decide_eq_false_iff_not, Int32.lt_iff_toInt_lt, Int32.toInt_zero,
    Int.not_lt, and_assoc]

/-! ### The loop -/

theorem overwrite_set {ys xs : List ℕ} {pos : ℕ} (x : ℕ) (hpos : pos + xs.length < ys.length) :
    (overwrite ys pos xs).set (pos + xs.length) x = overwrite ys pos (xs ++ [x]) := by
  unfold overwrite
  have hlen : (ys.take pos ++ xs).length = pos + xs.length := by
    rw [length_append, length_take]
    omega
  rw [set_append_right _ _ (by omega), hlen, Nat.sub_self,
    drop_eq_getElem_cons hpos, set_cons_zero, length_append, length_singleton]
  simp [Nat.add_assoc]

theorem slice_succ {xs : List ℕ} {pos n : ℕ} (hn : pos + n < xs.length) :
    slice xs pos (n + 1) = slice xs pos n ++ [(xs[pos + n]?).getD 0] := by
  unfold slice
  rw [take_add_one, getElem?_drop, getElem?_eq_getElem hn]
  rfl

theorem slice_length {xs : List ℕ} {pos n : ℕ} (hn : pos + n ≤ xs.length) :
    (slice xs pos n).length = n := by
  unfold slice
  rw [length_take, length_drop]
  omega

/-- The state of the loop after `i` elements. -/
theorem copyPrefix_succ {c : CopyCall} {i : ℕ} (hbounds : h.InBounds c)
    (hi : i < c.length.toInt.toNat) :
    Function.update (h.copyPrefix c i) c.dest
        ((h.copyPrefix c i c.dest).set (c.destPos.toInt.toNat + i) (h.element c i)) =
      h.copyPrefix c (i + 1) := by
  obtain ⟨hs, hd, hl, hsrc, hdest⟩ := hbounds
  have hin : c.srcPos.toInt.toNat + i < (h.elements c.src).length := by omega
  have hslice : c.srcPos.toInt.toNat + i ≤ (h.elements c.src).length := by omega
  have hlen := slice_length hslice
  unfold copyPrefix element
  rw [Function.update_idem, Function.update_self, slice_succ hin]
  congr 1
  have hroom : c.destPos.toInt.toNat + (slice (h.elements c.src) c.srcPos.toInt.toNat i).length <
      (h.elements c.dest).length := by omega
  have hset := overwrite_set (((h.elements c.src)[c.srcPos.toInt.toNat + i]?).getD 0) hroom
  rw [hlen] at hset
  exact hset

theorem copyPrefix_zero (c : CopyCall) : h.copyPrefix c 0 = h.elements := by
  unfold copyPrefix slice overwrite
  simp

theorem element_copyPrefix {c : CopyCall} (hne : c.src ≠ c.dest) (n i : ℕ) :
    ((h.copyPrefix c n c.src)[c.srcPos.toInt.toNat + i]?).getD 0 = h.element c i := by
  unfold copyPrefix element
  rw [Function.update_of_ne hne]

theorem copyLoop_copied {s : TypeVm} {c : CopyCall} {n i : ℕ} {elements : ℕ → List ℕ}
    {out : CopyOutcome} (hout : h.copyLoop s c n i elements = some out) : i ≤ out.copied := by
  induction n generalizing i elements with
  | zero =>
    cases hout
    exact le_rfl
  | succ n ih =>
    rw [copyLoop] at hout
    split at hout
    · exact Nat.le_of_succ_le (ih hout)
    · split at hout
      · cases hout
      · exact Nat.le_of_succ_le (ih hout)
      · cases hout
        exact le_rfl

def CheckedCopy (c : CopyCall) (out : CopyOutcome) : Prop :=
  (∀ j < c.length.toInt.toNat, h.Assignable c j) ∧
      out = ⟨none, c.length.toInt.toNat, h.copyPrefix c c.length.toInt.toNat⟩ ∨
    ∃ k < c.length.toInt.toNat, (∀ j < k, h.Assignable c j) ∧ ¬ h.Assignable c k ∧
      ∃ message, out = ⟨some ("java/lang/ArrayStoreException", message), k, h.copyPrefix c k⟩

section Loop

variable {s : TypeVm} {c : CopyCall}

theorem assignable_lt_succ {i : ℕ} (hbefore : ∀ j < i, h.Assignable c j) (hi : h.Assignable c i) :
    ∀ j < i + 1, h.Assignable c j := by
  intro j hj
  rcases Nat.lt_succ_iff_lt_or_eq.mp hj with hlt | rfl
  · exact hbefore j hlt
  · exact hi

theorem not_checkedCopy_of_lt {i : ℕ} {out : CopyOutcome} (hi : i < c.length.toInt.toNat)
    (hstop : ¬ h.Assignable c i) (hcopied : i < out.copied) : ¬ h.CheckedCopy c out := by
  rintro (⟨hall, -⟩ | ⟨k, -, hbefore, hk, message, rfl⟩)
  · exact hstop (hall i hi)
  · exact hstop (hbefore i hcopied)

theorem elementDecided_iff
    (hcomponent : W.kind (componentType (h.classOf c.dest)) ≠ .primitive) {i : ℕ}
    (hzero : h.element c i ≠ 0) : h.ElementDecided s c i ↔
      Answers (W.instanceof s (h.classOf (h.element c i)) (componentType (h.classOf c.dest)))
        (h.Assignable c i) := by
  have hassignable : h.Assignable c i ↔
      W.RuntimeSubtype (h.classOf (h.element c i)) (componentType (h.classOf c.dest)) :=
    (or_iff_right hcomponent).trans (or_iff_right hzero)
  unfold ElementDecided
  rw [forall_prop_of_true hzero, hassignable]

theorem copyLoop_right_iff (hne : c.src ≠ c.dest) (hbounds : h.InBounds c)
    (hcomponent : W.kind (componentType (h.classOf c.dest)) ≠ .primitive) {n i : ℕ}
    (hn : i + n = c.length.toInt.toNat) (hbefore : ∀ j < i, h.Assignable c j) :
    (∃ out, h.copyLoop s c n i (h.copyPrefix c i) = some out ∧ h.CheckedCopy c out) ↔
      ∀ k, i ≤ k → k < c.length.toInt.toNat → (∀ j < k, h.Assignable c j) →
        h.ElementDecided s c k := by
  induction n generalizing i with
  | zero =>
    rw [Nat.add_zero] at hn
    apply iff_of_true
    · refine ⟨_, rfl, .inl ⟨?_, ?_⟩⟩
      · rw [← hn]
        exact hbefore
      · rw [hn]
    · intro k hk hlt
      omega
  | succ n ih =>
    have hi : i < c.length.toInt.toNat := by omega
    -- the iteration at `i` decides about `i` only
    have hsplit (P : ℕ → Prop) : (∀ k, i ≤ k → P k) ↔ P i ∧ ∀ k, i + 1 ≤ k → P k := by
      constructor
      · intro hP
        exact ⟨hP i le_rfl, fun k hk => hP k (by omega)⟩
      · rintro ⟨hPi, hP⟩ k hk
        rcases Nat.eq_or_lt_of_le hk with rfl | hlt
        · exact hPi
        · exact hP k hlt
    have hnext (hok : h.Assignable c i) (hdecided : h.ElementDecided s c i) :
        (∃ out, h.copyLoop s c n (i + 1) (h.copyPrefix c (i + 1)) = some out ∧
          h.CheckedCopy c out) ↔ ∀ k, i ≤ k → k < c.length.toInt.toNat →
            (∀ j < k, h.Assignable c j) → h.ElementDecided s c k := by
      rw [ih (by omega) (h.assignable_lt_succ hbefore hok), hsplit,
        and_iff_right fun _ _ => hdecided]
    rw [copyLoop]
    rw [h.element_copyPrefix hne, h.copyPrefix_succ hbounds hi]
    by_cases hzero : h.element c i = 0
    · rw [if_pos hzero]
      exact hnext (Or.inr (Or.inl hzero)) fun hne => absurd hzero hne
    · rw [if_neg hzero]
      have hdecides := h.elementDecided_iff (s := s) hcomponent hzero
      cases hanswer : W.instanceof s (h.classOf (h.element c i))
          (componentType (h.classOf c.dest)) with
      | none =>
        rw [hanswer] at hdecides
        apply iff_of_false
        · rintro ⟨out, hout, -⟩
          cases hout
        · intro hall
          obtain ⟨b, hb, -⟩ := hdecides.mp (hall i le_rfl hi hbefore)
          cases hb
      | some b =>
        rw [hanswer] at hdecides
        cases b with
        | true =>
          dsimp only
          by_cases hok : h.Assignable c i
          · exact hnext hok (hdecides.mpr ⟨true, rfl, iff_of_true rfl hok⟩)
          · apply iff_of_false
            · rintro ⟨out, hout, hright⟩
              exact h.not_checkedCopy_of_lt hi hok (h.copyLoop_copied hout) hright
            · intro hall
              obtain ⟨_, ⟨⟩, hiff⟩ := hdecides.mp (hall i le_rfl hi hbefore)
              exact hok (hiff.mp rfl)
        | false =>
          dsimp only
          by_cases hok : h.Assignable c i
          · apply iff_of_false
            · rintro ⟨out, hout, hright⟩
              cases hout
              rcases hright with ⟨-, hnone⟩ | ⟨k, -, -, hk, message, heq⟩
              · cases hnone
              · cases heq
                exact hk hok
            · intro hall
              obtain ⟨_, ⟨⟩, hiff⟩ := hdecides.mp (hall i le_rfl hi hbefore)
              exact absurd (hiff.mpr hok) Bool.false_ne_true
          · apply iff_of_true
            · exact ⟨_, rfl, .inr ⟨i, hi, hbefore, hok, _, rfl⟩⟩
            · intro k hk _ hall
              rcases Nat.eq_or_lt_of_le hk with rfl | hlt
              · exact hdecides.mpr ⟨false, rfl, iff_of_false Bool.false_ne_true hok⟩
              · exact absurd (hall i hlt) hok

end Loop

/-! ### The call -/

section Call

variable {h} {s : TypeVm} {c : CopyCall}

theorem specified_iff_checked (hnull : ¬ (c.src = 0 ∨ c.dest = 0)) (hkinds : h.Compatible c)
    (hbounds : h.InBounds c) {out : CopyOutcome} : h.Specified c out ↔ h.CheckedCopy c out := by
  constructor
  · intro hspec
    cases hspec with
    | nullPointer hnull' => exact absurd hnull' hnull
    | arrayStore _ hkinds' => exact absurd hkinds hkinds'
    | outOfBounds _ _ hbounds' => exact absurd hbounds hbounds'
    | copied _ _ _ hall hout => exact .inl ⟨hall, hout⟩
    | stopped _ _ _ i hi hbefore hfirst hout => exact .inr ⟨i, hi, hbefore, hfirst, hout⟩
  · rintro (⟨hall, hout⟩ | ⟨i, hi, hbefore, hfirst, hout⟩)
    · exact .copied hnull hkinds hbounds hall hout
    · exact .stopped hnull hkinds hbounds i hi hbefore hfirst hout

theorem checkedCopy_moveAll :
    h.CheckedCopy c (h.moveAll c) ↔ ∀ j < c.length.toInt.toNat, h.Assignable c j := by
  constructor
  · rintro (⟨hall, -⟩ | ⟨k, -, -, -, message, heq⟩)
    · exact hall
    · cases heq
  · intro hall
    exact .inl ⟨hall, rfl⟩

/-- A call that fails a check leaves everything as it is, with the exception that is specified. -/
theorem arraycopy_unchecked
    (hfail : (c.src = 0 ∨ c.dest = 0) ∨ ¬ h.Compatible c ∨ ¬ h.InBounds c) :
    ∃ out, h.arraycopy s c = some out ∧ h.Specified c out := by
  unfold arraycopy
  dsimp only
  by_cases hnull : c.src = 0 ∨ c.dest = 0
  · rw [if_pos hnull]
    exact ⟨_, rfl, .nullPointer hnull ⟨_, rfl⟩⟩
  · rw [if_neg hnull]
    have hiff := h.compatible_iff c
    by_cases hsrc : W.kind (h.classOf c.src) = .ordinary
    · rw [if_pos hsrc]
      exact ⟨_, rfl, .arrayStore hnull (fun hk => (hiff.mp hk).1 hsrc) ⟨_, rfl⟩⟩
    · rw [if_neg hsrc]
      by_cases hdest : W.kind (h.classOf c.dest) = .ordinary
      · rw [if_pos hdest]
        exact ⟨_, rfl, .arrayStore hnull (fun hk => (hiff.mp hk).2.1 hdest) ⟨_, rfl⟩⟩
      · rw [if_neg hdest]
        split
        · rename_i hmismatch
          exact ⟨_, rfl, .arrayStore hnull (fun hk => (hiff.mp hk).2.2 hmismatch) ⟨_, rfl⟩⟩
        · rename_i hmatch
          have hkinds := hiff.mpr ⟨hsrc, hdest, hmatch⟩
          have hbounds : ¬ h.InBounds c := by
            rcases hfail with hfail | hfail | hfail
            · exact absurd hfail hnull
            · exact absurd hkinds hfail
            · exact hfail
          have hout : h.outside c = true := by
            by_contra hin
            exact hbounds (h.outside_eq_false.mp (Bool.eq_false_iff.mpr hin))
          rw [if_pos hout]
          exact ⟨_, rfl, .outOfBounds hnull hkinds hbounds ⟨_, rfl⟩⟩

/-- What is left of the call once it has passed the checks. -/
theorem arraycopy_checked (hnull : ¬ (c.src = 0 ∨ c.dest = 0)) (hkinds : h.Compatible c)
    (hbounds : h.InBounds c) :
    h.arraycopy s c =
      if W.kind (componentType (h.classOf c.dest)) = .primitive then some (h.moveAll c)
      else
        match W.instanceof s (componentType (h.classOf c.src))
            (componentType (h.classOf c.dest)) with
        | none => none
        | some true => some (h.moveAll c)
        | some false => h.copyLoop s c c.length.toInt.toNat 0 h.elements := by
  obtain ⟨hsrc, hdest, hmatch⟩ := (h.compatible_iff c).mp hkinds
  have hdims := (dims_pos_iff (h.notPrimitive c.dest)).mpr hdest
  have hsame : W.is1DPrimitiveArray (h.classOf c.src) =
      W.is1DPrimitiveArray (h.classOf c.dest) := by
    by_contra hne
    exact hmatch (.inl hne)
  unfold arraycopy
  dsimp only
  rw [if_neg hnull, if_neg hsrc, if_neg hdest, if_neg hmatch, h.outside_eq_false.mpr hbounds,
    if_neg Bool.false_ne_true, hsame]
  by_cases hprim : W.kind (componentType (h.classOf c.dest)) = .primitive
  · rw [if_pos hprim, if_pos ((is1DPrimitiveArray_iff hdims).mpr hprim)]
  · rw [if_neg hprim, if_neg fun hp => hprim ((is1DPrimitiveArray_iff hdims).mp hp)]

end Call

/-- `arraycopy` is specified for every call, and does what is specified exactly if `instanceof`
answers well enough. -/
theorem copiedRight_iff (s : TypeVm) (c : CopyCall) : h.CopiedRight s c ↔ h.CopyDecided s c := by
  unfold CopiedRight CopyDecided
  by_cases hpass : ¬ (c.src = 0 ∨ c.dest = 0) ∧ h.Compatible c ∧ h.InBounds c
  · obtain ⟨hnull, hkinds, hbounds⟩ := hpass
    simp only [specified_iff_checked hnull hkinds hbounds, arraycopy_checked hnull hkinds hbounds,
      hnull, hkinds, hbounds, not_false_eq_true, true_implies]
    by_cases hprim : W.kind (componentType (h.classOf c.dest)) = .primitive
    · rw [if_pos hprim]
      apply iff_of_true
      · exact ⟨_, rfl, checkedCopy_moveAll.mpr fun _ _ => .inl hprim⟩
      · exact fun hne => absurd hprim hne
    · rw [if_neg hprim]
      simp only [ne_eq, hprim, not_false_eq_true, true_implies]
      cases hanswer : W.instanceof s (componentType (h.classOf c.src))
          (componentType (h.classOf c.dest)) with
      | none => simp [AnswerSuffices]
      | some b =>
        cases b with
        | true =>
          simp only [Option.some.injEq, exists_eq_left']
          exact checkedCopy_moveAll
        | false =>
          have hne : c.src ≠ c.dest := by
            intro heq
            rw [heq] at hanswer
            simp [instanceof] at hanswer
          have hloop := h.copyLoop_right_iff (s := s) hne hbounds hprim (Nat.zero_add _)
            fun j hj => absurd hj (Nat.not_lt_zero j)
          rw [h.copyPrefix_zero] at hloop
          simp only [hloop, Nat.zero_le, true_implies]
          exact Iff.rfl
  · have hfail : (c.src = 0 ∨ c.dest = 0) ∨ ¬ h.Compatible c ∨ ¬ h.InBounds c := by
      by_contra hnone
      simp only [not_or, not_not] at hnone
      exact hpass ⟨not_or.mpr hnone.1, hnone.2⟩
    apply iff_of_true (arraycopy_unchecked hfail)
    intro hnull hkinds hbounds
    exact absurd ⟨hnull, hkinds, hbounds⟩ hpass

end ArrayHeap

/-- `System.arraycopy` meets its specification on a call exactly if the call fails one of the
checks, copies between arrays of primitive types, or `instanceof` answers as `CopyDecided` says. -/
theorem arraycopy_specified_iff (h : W.ArrayHeap) (s : TypeVm) (c : CopyCall) :
    h.CopiedRight s c ↔ h.CopyDecided s c :=
  h.copiedRight_iff s c

/-- An `Object[]` at 8 with a `boolean[]` in it, an `Object[][]` at 16, and the `boolean[]` at
24. -/
def mixedArrays : bootTypes.ArrayHeap where
  classOf
    | 8 => ⟨0, 1⟩
    | 16 => ⟨0, 2⟩
    | _ => ⟨3, 1⟩
  notPrimitive a := by
    split <;> decide
  elements
    | 8 => [24]
    | 16 => [0]
    | _ => []

/-- `arraycopy` stores a `boolean[]` into an `Object[][]`. -/
theorem arraycopy_booleanArray :
    ∃ s, Reachable (tableStep bootTypes.toClassWorld) (TypeVm.start bootTypes.toClassWorld) s ∧
      s.vm.arrayDims 0 = 2 ∧
      (∃ out, mixedArrays.arraycopy s ⟨8, 0, 16, 0, 1⟩ = some out ∧ out.exception = none ∧
        out.elements 16 = [24]) ∧
      ¬ mixedArrays.CopiedRight s ⟨8, 0, 16, 0, 1⟩ := by
  have hsteps : ∃ s s', tableStep bootTypes.toClassWorld (TypeVm.start bootTypes.toClassWorld)
      (.createArray 0 ⟨0, 0⟩) = some s ∧
      tableStep bootTypes.toClassWorld s (.createArray 0 ⟨0, 1⟩) = some s' ∧
      s'.vm.arrayDims 0 = 2 ∧ bootTypes.instanceof s' ⟨3, 1⟩ ⟨0, 1⟩ = some true ∧
      bootTypes.instanceof s' ⟨0, 0⟩ ⟨0, 1⟩ = some false ∧
      (∃ out, mixedArrays.arraycopy s' ⟨8, 0, 16, 0, 1⟩ = some out ∧ out.exception = none ∧
        out.elements 16 = [24]) :=
    ⟨_, _, rfl, rfl, by decide, rfl, rfl, _, rfl, rfl, rfl⟩
  obtain ⟨s, s', hs, hs', hdims, hwrong, hcomponents, hout⟩ := hsteps
  refine ⟨s', (Runs.refl.tail trivial hs).tail trivial hs', hdims, hout, ?_⟩
  rw [ArrayHeap.copiedRight_iff]
  intro hdecided
  have hcompatible : mixedArrays.Compatible ⟨8, 0, 16, 0, 1⟩ :=
    (mixedArrays.compatible_iff _).mpr (by decide)
  have hbounds : mixedArrays.InBounds ⟨8, 0, 16, 0, 1⟩ :=
    (mixedArrays.outside_eq_false).mp (by decide)
  have hanswers := hdecided (by decide) hcompatible hbounds (by decide)
  have hanswer : bootTypes.instanceof s'
      (componentType (mixedArrays.classOf 8)) (componentType (mixedArrays.classOf 16)) =
        some false := hcomponents
  rw [hanswer] at hanswers
  obtain ⟨b, hb, hsub⟩ := hanswers 0 (by decide) (fun j hj => absurd hj (Nat.not_lt_zero j))
    (by decide)
  obtain rfl : true = b := Option.some.inj (hwrong.symm.trans hb)
  have heq := (hsub.mp rfl).eq_of_primitive (by decide) (.inr (by decide))
  exact absurd heq (by decide)

end TypeWorld

end TraceJvm
