import TraceJvm.TypeLinking

/-! `instanceof` against the run-time subtype relation of the Java virtual machine. The display and
the interface list agree with the relation exactly along supertypes whose descriptors have been
set up. -/
namespace TraceJvm

open Transition List

/-- The superclass chain from one class to another, through descriptors that have a display. -/
def DisplayedPath (W : ClassWorld) (s : TypeVm) (o t : ClassRef) : Prop :=
  Relation.ReflTransGen (fun c p => W.superOf c = some p ∧ s.hierarchy c ≠ []) o t ∧
    s.hierarchy t ≠ []

def SetUpPath (W : ClassWorld) (s : TypeVm) (o t : ClassRef) : Prop :=
  Relation.ReflTransGen (fun c p => p ∈ W.supers c ∧ s.setUp c = true) o t ∧ s.setUp t = true

section Tables

variable {W : ClassWorld} {s : TypeVm}

variable {o t : ClassRef}

theorem DisplayedPath.subclass (h : DisplayedPath W s o t) : W.Subclass o t :=
  Relation.ReflTransGen.mono (fun _ _ hp => hp.1) _ _ h.1

theorem SetUpPath.supertype (h : SetUpPath W s o t) : W.Supertype o t :=
  Relation.ReflTransGen.mono (fun _ _ hp => hp.1) _ _ h.1

theorem TypeInv.display_eq (h : TypeInv W s) {r : ClassRef} (hr : s.hierarchy r ≠ []) :
    ∃ above, s.hierarchy r = above ++ [r] ∧
      (above = [] ∨ ∃ p, W.superOf r = some p ∧ above = s.hierarchy p) := by
  have hd := (h.display r).resolve_left hr
  unfold TypeVm.displayOf at hd
  cases hp : W.superOf r with
  | none =>
    rw [hp] at hd
    exact ⟨[], hd, .inl rfl⟩
  | some p =>
    rw [hp] at hd
    exact ⟨s.hierarchy p, hd, .inr ⟨p, rfl, rfl⟩⟩

/-- What stands in a display is a superclass at its own depth. -/
theorem TypeInv.display_sound (h : TypeInv W s) {o x : ClassRef} {n : ℕ}
    (hx : (s.hierarchy o)[n]? = some x) :
    (s.hierarchy x).length = n + 1 ∧ DisplayedPath W s o x := by
  induction o using ClassWorld.supers_induction (W := W) with
  | _ o ih =>
    have hne : s.hierarchy o ≠ [] := by
      intro hnil
      simp [hnil] at hx
    obtain ⟨above, ho, habove⟩ := h.display_eq hne
    rw [ho] at hx
    by_cases hn : n < above.length
    · rw [getElem?_append_left hn] at hx
      obtain rfl | ⟨p, hp, rfl⟩ := habove
      · simp at hn
      obtain ⟨hlen, hpath, hlast⟩ := ih p (ClassWorld.superOf_mem_supers hp) hx
      exact ⟨hlen, .head ⟨hp, hne⟩ hpath, hlast⟩
    · obtain rfl : n = above.length := by
        have hlt := (List.getElem?_eq_some_iff.mp hx).1
        simp only [length_append, length_singleton] at hlt
        omega
      obtain rfl : o = x := by simpa using hx
      exact ⟨by rw [ho]; simp, .refl, hne⟩

theorem TypeInv.display_prefix (h : TypeInv W s) (hpath : DisplayedPath W s o t) :
    s.hierarchy t <+: s.hierarchy o := by
  obtain ⟨hpath, -⟩ := hpath
  induction hpath using Relation.ReflTransGen.head_induction_on with
  | refl => exact prefix_rfl
  | @head c p hp _ ih =>
    have hd := (h.display c).resolve_left hp.2
    simp only [TypeVm.displayOf, hp.1] at hd
    rw [hd]
    exact ih.trans (prefix_append _ _)

/-- The comparison with the display is the superclass relation along displays. -/
theorem instanceofSuper_eq_true (h : TypeInv W s) :
    TypeWorld.instanceofSuper s o t = some true ↔ DisplayedPath W s o t := by
  unfold TypeWorld.instanceofSuper
  cases hlen : (s.hierarchy t).length with
  | zero =>
    have hnil : s.hierarchy t = [] := length_eq_zero_iff.mp hlen
    simp [DisplayedPath, hnil]
  | succ n =>
    have hne : s.hierarchy t ≠ [] := by
      intro hnil
      simp [hnil] at hlen
    simp only [Option.some.injEq, Bool.and_eq_true, decide_eq_true_eq]
    constructor
    · rintro ⟨-, hx⟩
      exact (h.display_sound hx).2
    · intro hpath
      obtain ⟨rest, hrest⟩ := h.display_prefix hpath
      obtain ⟨above, ht, -⟩ := h.display_eq hne
      have hn : above.length = n := by simpa [ht] using hlen
      have hx : (s.hierarchy o)[n]? = some t := by
        rw [← hrest, ht, ← hn]
        simp
      exact ⟨(List.getElem?_eq_some_iff.mp hx).1, hx⟩

theorem instanceofSuper_eq_none : TypeWorld.instanceofSuper s o t = none ↔ s.hierarchy t = [] := by
  unfold TypeWorld.instanceofSuper
  cases hlen : s.hierarchy t with
  | nil => simp
  | cons => simp

/-- The interface list holds the interfaces above the class along descriptors that are set up. -/
theorem TypeInv.mem_interfaces (h : TypeInv W s)
    (hroot : ∀ c, W.superOf c = none → W.supers c = [])
    (ht : W.interfaceFlag t) : t ∈ s.interfaces o ↔ SetUpPath W s o t := by
  induction o using ClassWorld.supers_induction (W := W) with
  | _ o ih =>
    cases hset : s.setUp o with
    | false =>
      rw [h.unset o hset]
      constructor
      · intro hmem
        simp at hmem
      · rintro ⟨hpath, hlast⟩
        cases hpath using Relation.ReflTransGen.head_induction_on with
        | refl => simp [hset] at hlast
        | head hp _ => simp [hset] at hp
    | true =>
      rw [h.interfaces o hset t]
      constructor
      · rintro (⟨-, p, hp, hmem⟩ | ⟨-, rfl⟩)
        · obtain ⟨hpath, hlast⟩ := (ih p hp).mp hmem
          exact ⟨.head ⟨hp, hset⟩ hpath, hlast⟩
        · exact ⟨.refl, hset⟩
      · rintro ⟨hpath, hlast⟩
        obtain rfl | ⟨p, hp, hrest⟩ := Relation.ReflTransGen.cases_head hpath
        · exact .inr ⟨ht, rfl⟩
        · refine .inl ⟨?_, p, hp.1, (ih p hp.1).mpr ⟨hrest, hlast⟩⟩
          cases hsup : W.superOf o with
          | none =>
            rw [hroot o hsup] at hp
            simp at hp
          | some q => rfl

theorem instanceofInterface_eq_true (h : TypeInv W s)
    (hroot : ∀ c, W.superOf c = none → W.supers c = [])
    (ht : W.interfaceFlag t) :
    TypeWorld.instanceofInterface s o t = true ↔ o = t ∨ SetUpPath W s o t := by
  simp only [TypeWorld.instanceofInterface, Bool.or_eq_true, decide_eq_true_eq,
    contains_iff_mem, h.mem_interfaces hroot ht]

end Tables

namespace TypeWorld

variable (W : TypeWorld)

/-- What class loading guarantees of the classes that array types rest on. -/
structure WellFormed : Prop where
  root : ∀ {c : ℕ}, W.superClass c = none → W.interfaces c = []
  object_ : W.superClass W.object = none ∧ W.isInterface W.object = false
  cloneable_ : W.superClass W.cloneable = some W.object ∧ W.interfaces W.cloneable = [] ∧
    W.isInterface W.cloneable
  serializable_ : W.superClass W.serializable = some W.object ∧ W.interfaces W.serializable = [] ∧
    W.isInterface W.serializable

/-- The run-time subtype relation of `instanceof`, `checkcast` and `aastore`. -/
inductive RuntimeSubtype : ClassRef → ClassRef → Prop where
  | ofClass {c d : ℕ} : W.isInterface d = false → W.Subclass ⟨c, 0⟩ ⟨d, 0⟩ →
      RuntimeSubtype ⟨c, 0⟩ ⟨d, 0⟩
  | ofInterface {c d : ℕ} : W.isInterface d = true → W.Supertype ⟨c, 0⟩ ⟨d, 0⟩ →
      RuntimeSubtype ⟨c, 0⟩ ⟨d, 0⟩
  | ofArray {c n d : ℕ} : d ∈ [W.object, W.cloneable, W.serializable] →
      RuntimeSubtype ⟨c, n + 1⟩ ⟨d, 0⟩
  | ofPrimitive {c : ℕ} : W.isPrimitive c → RuntimeSubtype ⟨c, 1⟩ ⟨c, 1⟩
  | ofComponent {o t : ClassRef} : W.kind o ≠ .primitive → W.kind t ≠ .primitive →
      RuntimeSubtype o t → RuntimeSubtype o.array t.array

/-- The descriptors that decide whether `o` is below the class or interface `t` are set up. -/
def Ready (s : TypeVm) (o t : ClassRef) : Prop :=
  if W.interfaceFlag t then W.Supertype o t → o = t ∨ SetUpPath W.toClassWorld s o t
  else s.hierarchy t ≠ [] ∧ (W.Subclass o t → DisplayedPath W.toClassWorld s o t)

/-- `boolean[]` and an array of references, whose missing component reads as `boolean`. -/
def BooleanArrayPair (o t : ClassRef) : Prop :=
  o.dims = 1 ∧ W.isPrimitive o.base ∧ W.primitiveKind o.base = .boolean ∧ t.dims = 1 ∧
    W.isPrimitive t.base = false

/-- When `instanceof` answers correctly: the types are the same, or they are not the pair above
and, with the dimensions of the target removed from both, their descriptors are ready. -/
def Decided (s : TypeVm) (o t : ClassRef) : Prop :=
  o = t ∨ ¬ W.BooleanArrayPair o t ∧ ∀ k, o.dims = k + t.dims →
    W.isPrimitive t.base = false → (W.isPrimitive o.base = true → k ≠ 0) →
      W.Ready s ⟨o.base, k⟩ ⟨t.base, 0⟩

variable {W} {s : TypeVm} {o t : ClassRef}

theorem kind_eq_primitive : W.kind o = .primitive ↔ W.isPrimitive o.base ∧ o.dims = 0 := by
  obtain ⟨c, d⟩ := o
  unfold Hierarchy.kind
  rcases d with _ | _ | d <;> cases W.isPrimitive c <;> simp

theorem kind_eq_ordinary : W.kind o = .ordinary ↔ W.isPrimitive o.base = false ∧ o.dims = 0 := by
  obtain ⟨c, d⟩ := o
  unfold Hierarchy.kind
  rcases d with _ | _ | d <;> cases W.isPrimitive c <;> simp

theorem kind_eq_ordinaryArray : W.kind o = .ordinaryArray ↔
    0 < o.dims ∧ (W.isPrimitive o.base → 1 < o.dims) := by
  obtain ⟨c, d⟩ := o
  unfold Hierarchy.kind
  rcases d with _ | _ | d <;> cases W.isPrimitive c <;> simp

namespace RuntimeSubtype

theorem dims_le (h : W.RuntimeSubtype o t) : t.dims ≤ o.dims := by
  induction h with
  | ofClass => exact le_rfl
  | ofInterface => exact le_rfl
  | ofArray => exact Nat.zero_le _
  | ofPrimitive => exact le_rfl
  | ofComponent _ _ _ ih => exact Nat.succ_le_succ ih

theorem refl (h : W.kind o ≠ .primitive) : W.RuntimeSubtype o o := by
  obtain ⟨c, n⟩ := o
  induction n with
  | zero =>
    cases hi : W.isInterface c with
    | false => exact .ofClass hi .refl
    | true => exact .ofInterface hi .refl
  | succ n ih =>
    by_cases hp : W.kind ⟨c, n⟩ = .primitive
    · obtain ⟨hp, rfl⟩ := kind_eq_primitive.mp hp
      exact .ofPrimitive hp
    · exact .ofComponent hp hp (ih hp)

theorem eq_of_primitive (h : W.RuntimeSubtype o t) (ht : 0 < t.dims)
    (hp : W.isPrimitive t.base ∨ W.isPrimitive o.base ∧ o.dims = t.dims) : o = t := by
  induction h with
  | ofClass | ofInterface | ofArray => exact absurd ht (lt_irrefl _)
  | ofPrimitive => rfl
  | @ofComponent o t ho ht' _ ih =>
    have hdims : 0 < t.dims := by
      rcases hp with hp | ⟨hp, heq⟩
      · exact Nat.pos_of_ne_zero fun h0 => ht' (kind_eq_primitive.mpr ⟨hp, h0⟩)
      · have hot : o.dims = t.dims := Nat.succ.inj heq
        exact Nat.pos_of_ne_zero fun h0 => ho (kind_eq_primitive.mpr ⟨hp, hot.trans h0⟩)
    rw [ih hdims (hp.imp id fun h => ⟨h.1, Nat.succ.inj h.2⟩)]

/-- The dimensions of the target can be removed from both sides. -/
theorem add_dims_iff {a b k n : ℕ} (hb : W.isPrimitive b = false)
    (ha : W.isPrimitive a = true → k ≠ 0) :
    W.RuntimeSubtype ⟨a, k + n⟩ ⟨b, n⟩ ↔ W.RuntimeSubtype ⟨a, k⟩ ⟨b, 0⟩ := by
  induction n with
  | zero => exact Iff.rfl
  | succ n ih =>
    rw [← ih]
    have hkind : W.kind ⟨a, k + n⟩ ≠ .primitive ∧ W.kind ⟨b, n⟩ ≠ .primitive := by
      refine ⟨fun h => ?_, fun h => ?_⟩
      · obtain ⟨hp, hk⟩ := kind_eq_primitive.mp h
        exact ha hp (by simp only at hk; omega)
      · exact absurd (kind_eq_primitive.mp h).1 (by simp [hb])
    constructor
    · intro h
      generalize ho : (⟨a, k + (n + 1)⟩ : ClassRef) = o at h
      generalize ht : (⟨b, n + 1⟩ : ClassRef) = t at h
      cases h with
      | ofClass => cases ht
      | ofInterface => cases ht
      | ofArray => cases ht
      | @ofPrimitive c hc =>
        cases ht
        simp [hb] at hc
      | @ofComponent o t _ _ h =>
        obtain ⟨o, m⟩ := o
        obtain ⟨t, l⟩ := t
        simp only [ClassRef.array, ClassRef.mk.injEq, Nat.add_right_cancel_iff] at ho ht
        obtain ⟨rfl, rfl⟩ := ht
        obtain ⟨rfl, ho⟩ := ho
        obtain rfl : m = k + n := by omega
        exact h
    · exact .ofComponent hkind.1 hkind.2

end RuntimeSubtype

/-- The result is there and is the truth value of `P`. -/
def Answers (x : Option Bool) (P : Prop) : Prop := ∃ b, x = some b ∧ (b = true ↔ P)

theorem answers_iff {x : Option Bool} {P : Prop} :
    Answers x P ↔ x ≠ none ∧ (x = some true ↔ P) := by
  cases x with
  | none => simp [Answers]
  | some b => simp [Answers]

section Object

variable (hW : W.WellFormed)

include hW in
theorem supers_root {c : ClassRef} (h : W.superOf c = none) : W.supers c = [] := by
  obtain ⟨c, n⟩ := c
  cases n with
  | zero =>
    have hc : W.superClass c = none := by simpa [ClassWorld.superOf] using h
    simp [Hierarchy.supers, hc, hW.root hc]
  | succ n => simp [ClassWorld.superOf] at h

include hW in
theorem superOf_object : W.superOf ⟨W.object, 0⟩ = none := by
  simp [ClassWorld.superOf, hW.object_.1]

include hW in
theorem subclass_object_eq {d : ClassRef} (h : W.Subclass ⟨W.object, 0⟩ d) :
    d = ⟨W.object, 0⟩ := by
  obtain rfl | ⟨p, hp, -⟩ := Relation.ReflTransGen.cases_head h
  · rfl
  · simp [superOf_object hW] at hp

include hW in
theorem supertype_object_eq {d : ClassRef} (h : W.Supertype ⟨W.object, 0⟩ d) :
    d = ⟨W.object, 0⟩ := by
  obtain rfl | ⟨p, hp, -⟩ := Relation.ReflTransGen.cases_head h
  · rfl
  · simp [supers_root hW (superOf_object hW)] at hp

theorem supertype_marker {i : ℕ} {d : ClassRef} (hW : W.WellFormed)
    (hi : W.superClass i = some W.object ∧ W.interfaces i = [] ∧ W.isInterface i)
    (h : W.Supertype ⟨i, 0⟩ d) : d = ⟨i, 0⟩ ∨ d = ⟨W.object, 0⟩ := by
  obtain rfl | ⟨p, hp, hrest⟩ := Relation.ReflTransGen.cases_head h
  · exact .inl rfl
  · obtain rfl : p = ⟨W.object, 0⟩ := by simpa [Hierarchy.supers, hi.1, hi.2.1] using hp
    exact .inr (supertype_object_eq hW hrest)

/-- Below a class or interface the relation is the closure of the direct one, also for arrays. -/
theorem runtimeSubtype_class_iff (hW : W.WellFormed) {d : ℕ} :
    W.RuntimeSubtype o ⟨d, 0⟩ ↔
      if W.isInterface d then W.Supertype o ⟨d, 0⟩ else W.Subclass o ⟨d, 0⟩ := by
  obtain ⟨c, n⟩ := o
  generalize ht : (⟨d, 0⟩ : ClassRef) = t
  cases n with
  | zero =>
    subst ht
    constructor
    · intro h
      cases h with
      | ofClass hi hsub | ofInterface hi hsub => simpa [hi] using hsub
    · intro h
      cases hi : W.isInterface d with
      | false => exact .ofClass hi (by simpa [hi] using h)
      | true => exact .ofInterface hi (by simpa [hi] using h)
  | succ n =>
    have hsup : W.superOf ⟨c, n + 1⟩ = some ⟨W.object, 0⟩ := by simp [ClassWorld.superOf]
    have hsupers : W.supers ⟨c, n + 1⟩ =
        [⟨W.object, 0⟩, ⟨W.cloneable, 0⟩, ⟨W.serializable, 0⟩] := by simp [Hierarchy.supers]
    constructor
    · intro h
      cases h with
      | ofArray hd =>
        cases ht
        simp only [mem_cons, not_mem_nil, or_false] at hd
        rcases hd with rfl | rfl | rfl
        · rw [if_neg (by simp [hW.object_.2])]
          exact .single hsup
        · rw [if_pos hW.cloneable_.2.2]
          exact .single (by simp [hsupers])
        · rw [if_pos hW.serializable_.2.2]
          exact .single (by simp [hsupers])
      | ofPrimitive => cases ht
      | ofComponent => cases ht
    · intro h
      subst ht
      apply RuntimeSubtype.ofArray
      cases hi : W.isInterface d with
      | false =>
        rw [hi, if_neg (by simp)] at h
        obtain heq | ⟨p, hp, hrest⟩ := Relation.ReflTransGen.cases_head h
        · cases heq
        · cases hsup.symm.trans hp
          cases subclass_object_eq hW hrest
          simp
      | true =>
        rw [hi, if_pos rfl] at h
        obtain heq | ⟨p, hp, hrest⟩ := Relation.ReflTransGen.cases_head h
        · cases heq
        · simp only [hsupers, mem_cons, not_mem_nil, or_false] at hp
          rcases hp with rfl | rfl | rfl
          · cases supertype_object_eq hW hrest
            simp
          · rcases supertype_marker hW hW.cloneable_ hrest with heq | heq <;> cases heq <;> simp
          · rcases supertype_marker hW hW.serializable_ hrest with heq | heq <;> cases heq <;> simp

/-- The comparison with a class or interface is right exactly when the descriptors are ready. -/
theorem instanceofObject_answers_iff (hW : W.WellFormed) (h : TypeInv W.toClassWorld s) {d : ℕ} :
    Answers (W.instanceofObject s o ⟨d, 0⟩) (W.RuntimeSubtype o ⟨d, 0⟩) ↔
      W.Ready s o ⟨d, 0⟩ := by
  rw [runtimeSubtype_class_iff hW, answers_iff]
  unfold instanceofObject Ready
  cases hi : W.isInterface d with
  | true =>
    have hflag : W.interfaceFlag ⟨d, 0⟩ = true := by simp [ClassWorld.interfaceFlag, hi]
    have htrue := instanceofInterface_eq_true h (fun _ => supers_root hW) (o := o) hflag
    simp only [hflag, if_true, ne_eq, reduceCtorEq, not_false_eq_true, true_and,
      Option.some.injEq, htrue]
    constructor
    · exact fun hiff => hiff.mpr
    · intro himp
      refine ⟨?_, himp⟩
      rintro (rfl | hpath)
      · exact .refl
      · exact hpath.supertype
  | false =>
    have hflag : W.interfaceFlag ⟨d, 0⟩ = false := by simp [ClassWorld.interfaceFlag, hi]
    simp only [hflag, Bool.false_eq_true, if_false, ne_eq, instanceofSuper_eq_none,
      instanceofSuper_eq_true h]
    apply and_congr_right
    intro _
    constructor
    · exact fun hiff => hiff.mpr
    · exact fun himp => ⟨fun hpath => hpath.subclass, himp⟩

end Object

theorem removeDims_add (a b k n : ℕ) :
    removeDims n ⟨a, k + n⟩ ⟨b, n⟩ = some (⟨a, k⟩, ⟨b, 0⟩) := by
  induction n with
  | zero => rfl
  | succ n ih => exact ih

theorem removeDims_of_lt {n : ℕ} (h : o.dims < n) : removeDims n o t = none := by
  induction n generalizing o t with
  | zero => omega
  | succ n ih =>
    obtain ⟨a, k⟩ := o
    obtain ⟨b, l⟩ := t
    rcases k with _ | k
    · rfl
    · rcases l with _ | l
      · rfl
      · exact ih (by simpa using h)

theorem answers_false {P : Prop} : Answers (some false) P ↔ ¬ P := by
  simp [Answers]

/-- Against an array type, for a source that is an array of references. -/
theorem instanceof_array (hW : W.WellFormed) (h : TypeInv W.toClassWorld s) {a b k n : ℕ}
    (hn : 0 < n) (hne : (⟨a, k⟩ : ClassRef) ≠ ⟨b, n⟩) (ha : W.kind ⟨a, k⟩ = .ordinaryArray) :
    Answers (W.instanceof s ⟨a, k⟩ ⟨b, n⟩) (W.RuntimeSubtype ⟨a, k⟩ ⟨b, n⟩) ↔
      W.Decided s ⟨a, k⟩ ⟨b, n⟩ := by
  have hb : W.kind ⟨b, n⟩ ≠ .ordinary := fun hb => by
    have := (kind_eq_ordinary.mp hb).2
    simp only at this
    omega
  have hpair : ¬ W.BooleanArrayPair ⟨a, k⟩ ⟨b, n⟩ := fun hp => by
    have := (kind_eq_ordinaryArray.mp ha).2 hp.2.1
    have := hp.1
    omega
  simp only [instanceof, Decided, if_pos hb, ha, reduceCtorEq, if_false, if_true, hne,
    false_or, hpair, not_false_eq_true, true_and]
  by_cases hk : k < n
  · rw [removeDims_of_lt hk]
    simp only [answers_false]
    refine iff_of_true (fun hsub => ?_) (fun j hj => ?_)
    · have := hsub.dims_le
      simp only at this
      omega
    · omega
  · obtain ⟨j, rfl⟩ : ∃ j, k = j + n := ⟨k - n, by omega⟩
    rw [removeDims_add]
    by_cases hp : W.kind ⟨a, j⟩ = .primitive ∨ W.kind ⟨b, 0⟩ = .primitive
    · simp only [if_pos hp, answers_false]
      simp only [kind_eq_primitive, and_true] at hp
      refine iff_of_true (fun hsub => hne (hsub.eq_of_primitive hn ?_)) ?_
      · rcases hp with ⟨hp, rfl⟩ | hp
        · exact .inr ⟨hp, by simp⟩
        · exact .inl hp
      · intro i hi hb' ha'
        obtain rfl : i = j := by omega
        rcases hp with ⟨hp, rfl⟩ | hp
        · exact absurd rfl (ha' hp)
        · simp [hp] at hb'
    · simp only [if_neg hp]
      simp only [kind_eq_primitive, and_true, not_or, not_and] at hp
      have hb' : W.isPrimitive b = false := by simpa using hp.2
      rw [RuntimeSubtype.add_dims_iff hb' hp.1, instanceofObject_answers_iff hW h]
      constructor
      · intro hr i hi _ _
        obtain rfl : i = j := by omega
        exact hr
      · intro hr
        exact hr j rfl hb' hp.1

/-- In a state whose tables satisfy their equations, `instanceof` decides the subtype relation
exactly on the pairs that are decided. -/
theorem instanceof_answers_iff (hW : W.WellFormed) (h : TypeInv W.toClassWorld s)
    (ho : W.kind o ≠ .primitive) (ht : W.kind t ≠ .primitive) :
    Answers (W.instanceof s o t) (W.RuntimeSubtype o t) ↔ W.Decided s o t := by
  by_cases hne : o = t
  · subst hne
    simp only [instanceof, if_true, Decided, true_or, iff_true]
    exact ⟨true, rfl, by simpa using RuntimeSubtype.refl ho⟩
  obtain ⟨a, k⟩ := o
  obtain ⟨b, n⟩ := t
  by_cases hn : n = 0
  · -- the target is a class or interface
    subst hn
    have hb : W.isPrimitive b = false := by simpa [kind_eq_primitive] using ht
    have hkind : W.kind ⟨b, 0⟩ = .ordinary := kind_eq_ordinary.mpr ⟨hb, rfl⟩
    have ha : W.isPrimitive a = true → k ≠ 0 := by simpa [kind_eq_primitive] using ho
    simp only [instanceof, hkind, ne_eq, not_true_eq_false, if_false,
      instanceofObject_answers_iff hW h, Decided, hne, false_or]
    constructor
    · intro hr
      refine ⟨fun hp => by simpa using hp.2.2.2.1, fun i hi _ _ => ?_⟩
      obtain rfl : k = i := by simpa using hi
      exact hr
    · exact fun hr => hr.2 k rfl hb ha
  have hpos : 0 < n := Nat.pos_of_ne_zero hn
  have hb : W.kind ⟨b, n⟩ ≠ .ordinary := fun hb => hn (kind_eq_ordinary.mp hb).2
  cases ha : W.kind ⟨a, k⟩ with
  | primitive => exact absurd ha ho
  | ordinaryArray => exact instanceof_array hW h hpos hne ha
  | ordinary =>
    obtain ⟨-, hk⟩ := kind_eq_ordinary.mp ha
    simp only at hk
    subst hk
    simp only [instanceof, if_pos hb, ha, if_true, Decided, hne, if_false, answers_false,
      false_or]
    refine iff_of_true (fun hsub => ?_) ⟨fun hp => by simpa using hp.1, fun i hi => ?_⟩
    · exact hn (Nat.le_zero.mp hsub.dims_le)
    · omega
  | primitiveArray =>
    have hprim : W.isPrimitive a = true ∧ k = 1 := by
      unfold Hierarchy.kind at ha
      rcases k with _ | _ | k <;> cases hp : W.isPrimitive a <;> simp [hp] at ha ⊢
    obtain ⟨hprim, rfl⟩ := hprim
    simp only [instanceof, if_neg hne, if_pos hb, ha, reduceCtorEq, if_false]
    have hfalse : ¬ W.RuntimeSubtype ⟨a, 1⟩ ⟨b, n⟩ := fun hsub => by
      have hle := hsub.dims_le
      simp only at hle
      exact hne (hsub.eq_of_primitive hpos (.inr ⟨hprim, by simp only; omega⟩))
    have hready : ∀ k, 1 = k + n → W.isPrimitive b = false → (W.isPrimitive a = true → k ≠ 0) →
        W.Ready s ⟨a, k⟩ ⟨b, 0⟩ := by
      intro k hk _ hk0
      exact absurd (by omega) (hk0 hprim)
    have hpair : W.BooleanArrayPair ⟨a, 1⟩ ⟨b, n⟩ ↔
        n = 1 ∧ W.primitiveComponent ⟨b, n⟩ = W.primitiveComponent ⟨a, 1⟩ := by
      simp only [BooleanArrayPair, hprim, true_and, primitiveComponent, if_true]
      cases hp : W.isPrimitive b with
      | false =>
        simp only [Bool.false_eq_true, if_false, and_true, eq_comm (a := TypeKind.boolean)]
        exact and_comm
      | true =>
        simp only [reduceCtorEq, and_false, if_true, false_iff, not_and]
        rintro rfl heq
        exact hne (by rw [W.primitive_unique hp hprim heq])
    simp only [Decided, hne, false_or, hpair, and_iff_left hready]
    by_cases hboth : n = 1 ∧ W.primitiveComponent ⟨b, n⟩ = W.primitiveComponent ⟨a, 1⟩
    · obtain ⟨rfl, hcomp⟩ := hboth
      simp [Answers, hcomp, hfalse]
    · have hval : (decide (n = 1) &&
          decide (W.primitiveComponent ⟨b, n⟩ = W.primitiveComponent ⟨a, 1⟩)) = false := by
        simpa using hboth
      rw [hval, answers_false]
      exact iff_of_true hfalse hboth

end TypeWorld

/-! ### Reachable states -/

namespace TypeVm

/-- The descriptors that booting sets up: the supertypes of all arrays and the one-dimensional
arrays of the primitive types. -/
def bootRef (W : ClassWorld) (r : ClassRef) : Bool :=
  r.dims = 0 && [W.object, W.cloneable, W.serializable].contains r.base ||
    r.dims = 1 && W.isPrimitive r.base

def start (W : ClassWorld) : TypeVm where
  vm :=
    { Vm.initial W.toHierarchy with
      state := fun r =>
        if r.dims = 0 ∧ r.base ∈ [W.object, W.cloneable, W.serializable] then .linked
        else (Vm.initial W.toHierarchy).state r }
  hierarchy r :=
    if r = ⟨W.object, 0⟩ then [r] else if bootRef W r then [⟨W.object, 0⟩, r] else []
  tables r := if bootRef W r then W.tables r else .empty
  setUp := bootRef W

end TypeVm

namespace TypeWorld

variable {W : TypeWorld} {s : TypeVm} {o t : ClassRef}

theorem bootRef_super (hW : W.WellFormed) {r : ClassRef}
    (h : TypeVm.bootRef W.toClassWorld r = true) (hr : r ≠ ⟨W.object, 0⟩) :
    W.superOf r = some ⟨W.object, 0⟩ := by
  obtain ⟨c, n⟩ := r
  cases n with
  | zero =>
    have hc : c = W.object ∨ c = W.cloneable ∨ c = W.serializable := by
      simpa [TypeVm.bootRef] using h
    rcases hc with rfl | rfl | rfl
    · exact absurd rfl hr
    · simp [ClassWorld.superOf, hW.cloneable_.1]
    · simp [ClassWorld.superOf, hW.serializable_.1]
  | succ n => simp [ClassWorld.superOf]

theorem bootRef_supers (hW : W.WellFormed) {r p : ClassRef}
    (h : TypeVm.bootRef W.toClassWorld r = true) (hp : p ∈ W.supers r) :
    p.dims = 0 ∧ p.base ∈ [W.object, W.cloneable, W.serializable] := by
  refine ⟨W.supers_dims hp, ?_⟩
  obtain ⟨c, n⟩ := r
  cases n with
  | zero =>
    have hc : c = W.object ∨ c = W.cloneable ∨ c = W.serializable := by
      simpa [TypeVm.bootRef] using h
    rcases hc with rfl | rfl | rfl
    · simp [Hierarchy.supers, hW.object_.1, hW.root hW.object_.1] at hp
    · simp [Hierarchy.supers, hW.cloneable_.1, hW.cloneable_.2.1] at hp
      simp [hp]
    · simp [Hierarchy.supers, hW.serializable_.1, hW.serializable_.2.1] at hp
      simp [hp]
  | succ n =>
    simp only [Hierarchy.supers, Nat.succ_ne_zero, if_false, mem_cons, not_mem_nil, or_false] at hp
    rcases hp with rfl | rfl | rfl <;> simp

theorem start_interfaces (r : ClassRef) :
    (TypeVm.start W.toClassWorld).interfaces r =
      if TypeVm.bootRef W.toClassWorld r then (W.tables r).itables.map Itable.interface
      else [] := by
  unfold TypeVm.interfaces TypeVm.start
  dsimp only
  split
  · rfl
  · rfl

theorem start_state {p : ClassRef}
    (hp : p.dims = 0 ∧ p.base ∈ [W.object, W.cloneable, W.serializable]) :
    (TypeVm.start W.toClassWorld).vm.state p ≠ .loaded := by
  simp only [TypeVm.start, if_pos hp]
  simp

theorem bootRef_of {p : ClassRef}
    (hp : p.dims = 0 ∧ p.base ∈ [W.object, W.cloneable, W.serializable]) :
    TypeVm.bootRef W.toClassWorld p = true := by
  simp [TypeVm.bootRef, hp.1, hp.2]

theorem start_inv (hW : W.WellFormed) : TypeInv W.toClassWorld (TypeVm.start W.toClassWorld) where
  boot p hp := start_state ⟨rfl, hp⟩
  primitive c hc := by
    simp only [TypeVm.start]
    split
    · simp
    · simp [Vm.initial, hc]
  display r := by
    by_cases hobj : r = ⟨W.object, 0⟩
    · right
      subst hobj
      simp [TypeVm.displayOf, TypeVm.start, superOf_object hW]
    · cases hb : TypeVm.bootRef W.toClassWorld r with
      | false => left; simp [TypeVm.start, hobj, hb]
      | true =>
        right
        simp [TypeVm.displayOf, TypeVm.start, bootRef_super hW hb hobj, hobj, hb]
  displaySuper r p hr hp := by
    have hb : TypeVm.bootRef W.toClassWorld r = true := by
      by_contra hb
      by_cases hobj : r = ⟨W.object, 0⟩
      · subst hobj
        simp [superOf_object hW] at hp
      · exact hr (by simp [TypeVm.start, hobj, hb])
    exact start_state (bootRef_supers hW hb (ClassWorld.superOf_mem_supers hp))
  interfaces r hr j := by
    have hb : TypeVm.bootRef W.toClassWorld r = true := hr
    rw [start_interfaces, if_pos hb, ClassWorld.tables_eq,
      ClassWorld.mem_setUpFunctionTables_interface]
    have hsup : (∃ p ∈ W.supers r, j ∈ (W.tables p).itables.map Itable.interface) ↔
        ∃ p ∈ W.supers r, j ∈ (TypeVm.start W.toClassWorld).interfaces p := by
      constructor
      · rintro ⟨p, hp, hj⟩
        refine ⟨p, hp, ?_⟩
        rwa [start_interfaces, if_pos (bootRef_of (bootRef_supers hW hb hp))]
      · rintro ⟨p, hp, hj⟩
        refine ⟨p, hp, ?_⟩
        rwa [start_interfaces, if_pos (bootRef_of (bootRef_supers hW hb hp))] at hj
    rw [hsup]
  unset r hr := by
    have hb : TypeVm.bootRef W.toClassWorld r = false := hr
    simp [start_interfaces, hb]
  supers r hr p hp := start_state (bootRef_supers hW hr hp)

/-- In every reachable state and for all types that have descriptors, `instanceof` decides the
run-time subtype relation exactly on the decided pairs. -/
theorem instanceof_runtimeSubtype_iff (W : TypeWorld) (hW : W.WellFormed) {s : TypeVm}
    (hs : Reachable (tableStep W.toClassWorld) (TypeVm.start W.toClassWorld) s) {o t : ClassRef}
    (ho : W.kind o ≠ .primitive) (ht : W.kind t ≠ .primitive) :
    Answers (W.instanceof s o t) (W.RuntimeSubtype o t) ↔ W.Decided s o t := by
  have hinv : TypeInv W.toClassWorld s :=
    hs.invariant (TypeInv W.toClassWorld) (start_inv hW) fun _ _ _ h _ hstep => tableStep_inv h hstep
  exact instanceof_answers_iff hW hinv ho ht

/-- `Object`, `Cloneable` and `Serializable`, then the types `boolean` and `int`. -/
def bootTypes : TypeWorld where
  isPrimitive c := c = 3 || c = 4
  superClass
    | 1 => some 0
    | 2 => some 0
    | _ => none
  interfaces _ := []
  hasClinit _ := false
  verifies _ := true
  object := 0
  cloneable := 1
  serializable := 2
  super_lt := by
    intro c p h
    split at h <;> cases h <;> decide
  interfaces_lt := Hierarchy.lt_of_mem_nil
  className
    | 0 => "java/lang/Object"
    | 1 => "java/lang/Cloneable"
    | 2 => "java/io/Serializable"
    | 3 => "boolean"
    | _ => "int"
  loader _ := 0
  isInterface c := c = 1 || c = 2
  methods _ := []
  my_class := ClassWorld.my_class_nil
  my_index := ClassWorld.my_index_nil
  primitiveKind c := if c = 3 then .boolean else .int
  primitive_unique := by
    intro a b ha hb hab
    simp only [Bool.or_eq_true, decide_eq_true_eq] at ha hb
    rcases ha with rfl | rfl <;> rcases hb with rfl | rfl <;> simp_all

theorem bootTypes_wellFormed : bootTypes.WellFormed where
  root _ := rfl
  object_ := by decide
  cloneable_ := by decide
  serializable_ := by decide

/-- `int[]` is below `Cloneable`. -/
theorem instanceof_runtimeSubtype_iff_intArray :
    Answers (bootTypes.instanceof (TypeVm.start bootTypes.toClassWorld) ⟨4, 1⟩ ⟨1, 0⟩)
      (bootTypes.RuntimeSubtype ⟨4, 1⟩ ⟨1, 0⟩) := by
  apply (bootTypes.instanceof_runtimeSubtype_iff bootTypes_wellFormed .refl (by decide)
    (by decide)).mpr
  refine .inr ⟨fun h => absurd h.2.2.1 (by decide), fun k hk _ _ => ?_⟩
  obtain rfl : 1 = k := hk
  show _ → _ ∨ _
  intro _
  exact .inr ⟨.single ⟨by decide, by decide⟩, by decide⟩

/-- Once `Object[]` exists, `boolean[]` is an instance of it. -/
theorem instanceof_booleanArray :
    ∃ s, Reachable (tableStep bootTypes.toClassWorld) (TypeVm.start bootTypes.toClassWorld) s ∧
      s.vm.state ⟨3, 1⟩ = .initialized ∧ s.vm.state ⟨0, 1⟩ = .linked ∧
      s.vm.arrayDims 3 = 1 ∧ s.vm.arrayDims 0 = 1 ∧
      ¬ Answers (bootTypes.instanceof s ⟨3, 1⟩ ⟨0, 1⟩) (bootTypes.RuntimeSubtype ⟨3, 1⟩ ⟨0, 1⟩) := by
  have hstep : ∃ s, tableStep bootTypes.toClassWorld (TypeVm.start bootTypes.toClassWorld)
      (.createArray 0 ⟨0, 0⟩) = some s ∧ s.vm.state ⟨3, 1⟩ = .initialized ∧
      s.vm.state ⟨0, 1⟩ = .linked ∧ s.vm.arrayDims 3 = 1 ∧ s.vm.arrayDims 0 = 1 :=
    ⟨_, rfl, by decide, by decide, by decide, by decide⟩
  obtain ⟨s, hs, hbool, hobj, hdims, hdims'⟩ := hstep
  refine ⟨s, Runs.refl.tail trivial hs, hbool, hobj, hdims, hdims', ?_⟩
  rintro ⟨b, hb, hsub⟩
  obtain rfl : true = b := Option.some.inj hb
  have heq := (hsub.mp rfl).eq_of_primitive (by decide) (.inr (by decide))
  exact absurd heq (by decide)

end TypeWorld

end TraceJvm
