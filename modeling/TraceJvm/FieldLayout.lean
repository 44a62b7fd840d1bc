import TraceJvm.Lib.Placement
import TraceJvm.Classfile
import Mathlib.Data.List.Nodup
import Mathlib.Data.List.Perm.Basic

/-! The layout that `link_class` computes for the fields of a class: `allocate_field`,
`reorder_fields_for_compactness` and the lists of references that the collector follows. -/
namespace TraceJvm

open Placement List Option

/-- `sizeof(void *)` is 4 in the browser and 8 natively. -/
inductive PointerWidth where
  | bits32
  | bits64

def PointerWidth.bytes : PointerWidth → ℕ
  | .bits32 => 4
  | .bits64 => 8

/-- `cp_field`, as far as its place in memory depends on it. -/
structure DeclaredField where
  parsedDescriptor : FieldDescriptor
  isStatic : Bool

def DeclaredField.reprKind (f : DeclaredField) : TypeKind := f.parsedDescriptor.reprKind

/-- The fields of a class, with its entry in `vm->class_padding`. -/
structure ClassFields where
  fields : List DeclaredField
  classPadding : Option ℕ

/-- `sizeof_type_kind`; a field of kind `void` is not expected. -/
def sizeofTypeKind (w : PointerWidth) : TypeKind → Option ℕ
  | .byte | .boolean => some 1
  | .char | .short => some 2
  | .float | .int => some 4
  | .reference => some w.bytes
  | .double | .long => some 8
  | .void => none

/-- `allocate_field`: the offset and the new value of `current`. -/
def allocateField (w : PointerWidth) (current : ℕ) : TypeKind → Option (ℕ × ℕ)
  | .boolean | .byte => some (current, current + 1)
  | .char | .short => some (alignUp current 2, alignUp current 2 + 2)
  | .float | .int => some (alignUp current 4, alignUp current 4 + 4)
  | .double | .long => some (alignUp current 8, alignUp current 8 + 8)
  | .reference => some (alignUp current w.bytes, alignUp current w.bytes + w.bytes)
  | .void => none

def fieldSize (w : PointerWidth) (c : ClassFields) (i : ℕ) : Option ℕ :=
  (c.fields[i]?).bind fun f => sizeofTypeKind w f.reprKind

def reorderFieldsForCompactness (w : PointerWidth) (c : ClassFields) : List ℕ :=
  [8, 4, 2, 1].flatMap fun n =>
    (List.range c.fields.length).filter fun i => fieldSize w c i = some n

def placementOrder (w : PointerWidth) (c : ClassFields) : List ℕ :=
  if c.classPadding.isSome then List.range c.fields.length else reorderFieldsForCompactness w c

structure LayoutState where
  staticOffset : ℕ
  nonstaticOffset : ℕ
  byteOffset : ℕ → ℕ

def placeField (w : PointerWidth) (c : ClassFields) (st : LayoutState) (i : ℕ) :
    Option LayoutState :=
  match c.fields[i]? with
  | none => none
  | some f =>
      if f.isStatic then
        (allocateField w st.staticOffset f.reprKind).map fun r =>
          { st with staticOffset := r.2, byteOffset := Function.update st.byteOffset i r.1 }
      else
        (allocateField w st.nonstaticOffset f.reprKind).map fun r =>
          { st with nonstaticOffset := r.2, byteOffset := Function.update st.byteOffset i r.1 }

/-- The fields of a linked class. The entries of the lists are `u16`. -/
structure FieldLayout where
  byteOffset : ℕ → ℕ
  staticBytes : ℕ
  instanceBytes : ℕ
  staticReferences : List UInt16
  instanceReferences : List UInt16

def referenceFields (c : ClassFields) (isStatic : Bool) : List ℕ :=
  (List.range c.fields.length).filter fun i =>
    (c.fields[i]?).any fun f => f.reprKind = .reference && f.isStatic = isStatic

/-- The part of `link_class` that lays out the fields, for a class whose superclass has been laid
out before. -/
def linkFields (w : PointerWidth) (objHeader : ℕ) (super : Option FieldLayout) (c : ClassFields) :
    Option FieldLayout :=
  if c.fields.all fun f => f.reprKind ≠ .void then
    let base := (super.map FieldLayout.instanceBytes).getD objHeader + c.classPadding.getD 0
    ((placementOrder w c).foldlM (placeField w c) ⟨0, base, fun _ => 0⟩).map fun st =>
      { byteOffset := st.byteOffset
        staticBytes := st.staticOffset
        instanceBytes := st.nonstaticOffset
        staticReferences := (referenceFields c true).map fun i =>
          UInt16.ofNat (st.byteOffset i / w.bytes)
        instanceReferences := (super.map FieldLayout.instanceReferences).getD [] ++
          (referenceFields c false).map fun i => UInt16.ofNat (st.byteOffset i / w.bytes) }
  else none

def linkChain (w : PointerWidth) (objHeader : ℕ) : List ClassFields → Option (List FieldLayout)
  | [] => some []
  | c :: supers => (linkChain w objHeader supers).bind fun ls =>
      (linkFields w objHeader ls.head? c).map fun l => l :: ls

/-! ### What the layout has to be -/

structure PlacedField where
  kind : TypeKind
  offset : ℕ
  bytes : ℕ

def PlacedField.Disjoint (a b : PlacedField) : Prop :=
  a.offset + a.bytes ≤ b.offset ∨ b.offset + b.bytes ≤ a.offset

def ownFields (w : PointerWidth) (c : ClassFields) (l : FieldLayout) (isStatic : Bool) :
    List PlacedField :=
  (List.range c.fields.length).filterMap fun i =>
    (c.fields[i]?).bind fun f =>
      if f.isStatic = isStatic then
        some ⟨f.reprKind, l.byteOffset i, (sizeofTypeKind w f.reprKind).getD 0⟩
      else none

def instanceFields (w : PointerWidth) : List ClassFields → List FieldLayout → List PlacedField
  | c :: cs, l :: ls => instanceFields w cs ls ++ ownFields w c l false
  | _, _ => []

def referenceOffsets (fs : List PlacedField) : List ℕ :=
  (fs.filter fun f => f.kind = .reference).map PlacedField.offset

/-- The fields lie in the given bounds, aligned to their sizes and without overlap. -/
structure WellPlaced (fs : List PlacedField) (lower upper : ℕ) : Prop where
  aligned : ∀ f ∈ fs, f.bytes ∣ f.offset
  bounds : ∀ f ∈ fs, 0 < f.bytes ∧ lower ≤ f.offset ∧ f.offset + f.bytes ≤ upper
  disjoint : fs.Pairwise PlacedField.Disjoint

def scaledUp (w : PointerWidth) (refs : List UInt16) : List ℕ := refs.map fun r => r.toNat * w.bytes

/-- The layout of a class above its superclasses: the superclasses keep theirs, the own fields
extend the instance, and the collector's lists hold the references, each once. -/
structure LayoutSound (w : PointerWidth) (objHeader : ℕ) (c : ClassFields)
    (supers : List ClassFields) (l : FieldLayout) (layouts : List FieldLayout) : Prop where
  superclasses : linkChain w objHeader supers = some layouts
  instanceArea : WellPlaced (instanceFields w (c :: supers) (l :: layouts)) objHeader
    l.instanceBytes
  ownArea : WellPlaced (ownFields w c l false)
    ((layouts.head?.map FieldLayout.instanceBytes).getD objHeader) l.instanceBytes
  staticArea : WellPlaced (ownFields w c l true) 0 l.staticBytes
  instanceReferences : (scaledUp w l.instanceReferences).Perm
    (referenceOffsets (instanceFields w (c :: supers) (l :: layouts)))
  instanceOnce : (scaledUp w l.instanceReferences).Nodup
  staticReferences : (scaledUp w l.staticReferences).Perm
    (referenceOffsets (ownFields w c l true))
  staticOnce : (scaledUp w l.staticReferences).Nodup

/-! ### Placement -/

def areaSize (w : PointerWidth) (c : ClassFields) (isStatic : Bool) (i : ℕ) : Option ℕ :=
  (c.fields[i]?).bind fun f =>
    if f.isStatic = isStatic then sizeofTypeKind w f.reprKind else none

def chainEnd (w : PointerWidth) (objHeader : ℕ) : List ClassFields → ℕ
  | [] => objHeader
  | c :: supers => cursor (areaSize w c false) (chainEnd w objHeader supers + c.classPadding.getD 0)
      (placementOrder w c)

/-- Every reference that is placed in an area from `base` on begins before word `2 ^ 16`. -/
def SlotsFit (w : PointerWidth) (base : ℕ) (c : ClassFields) (isStatic : Bool) : Prop :=
  ∀ j i, (placementOrder w c)[j]? = some i → i ∈ referenceFields c isStatic →
    start (areaSize w c isStatic) base (placementOrder w c) j w.bytes / w.bytes < 2 ^ 16

def InstanceSlotsFit (w : PointerWidth) (objHeader : ℕ) : List ClassFields → Prop
  | [] => True
  | c :: supers => SlotsFit w (chainEnd w objHeader supers + c.classPadding.getD 0) c false ∧
      InstanceSlotsFit w objHeader supers

section

variable {w : PointerWidth} {c : ClassFields} {st st' : LayoutState} {i : ℕ} {f : DeclaredField}

theorem PointerWidth.bytes_pos (w : PointerWidth) : 0 < w.bytes := by
  cases w <;> decide

theorem sizeofTypeKind_pos {k : TypeKind} {n : ℕ} (h : sizeofTypeKind w k = some n) : 0 < n := by
  have hw := w.bytes_pos
  cases k <;> simp only [sizeofTypeKind, some.injEq, reduceCtorEq] at h <;> omega

theorem areaSize_pos (isStatic : Bool) (i n : ℕ) (h : areaSize w c isStatic i = some n) :
    0 < n := by
  obtain ⟨f, -, hf⟩ := bind_eq_some_iff.mp h
  rw [ite_none_right_eq_some] at hf
  exact sizeofTypeKind_pos hf.2

theorem allocateField_eq (current : ℕ) (k : TypeKind) :
    allocateField w current k =
      (sizeofTypeKind w k).map fun n => (alignUp current n, alignUp current n + n) := by
  cases k <;> simp [allocateField, sizeofTypeKind, alignUp]

def LayoutState.area (st : LayoutState) (isStatic : Bool) : ℕ :=
  if isStatic then st.staticOffset else st.nonstaticOffset

/-- One field advances its own area and gets its offset there. -/
theorem placeField_spec (h : placeField w c st i = some st') (hf : c.fields[i]? = some f) :
    ∃ n, sizeofTypeKind w f.reprKind = some n ∧
      (∀ b, st'.area b = advance (areaSize w c b) (st.area b) i) ∧
      st'.byteOffset = Function.update st.byteOffset i (alignUp (st.area f.isStatic) n) := by
  simp only [placeField, hf, allocateField_eq] at h
  cases hn : sizeofTypeKind w f.reprKind with
  | none => simp [hn] at h
  | some n =>
    refine ⟨n, rfl, ?_⟩
    have harea : ∀ b, areaSize w c b i = if f.isStatic = b then some n else none := by
      intro b
      simp [areaSize, hf, hn]
    cases hs : f.isStatic with
    | true =>
      simp only [hs, hn, if_true, map_some, some.injEq] at h
      subst h
      refine ⟨fun b => ?_, rfl⟩
      cases b <;> simp [LayoutState.area, advance, harea, hs]
    | false =>
      simp only [hs, hn, Bool.false_eq_true, if_false, map_some, some.injEq] at h
      subst h
      refine ⟨fun b => ?_, rfl⟩
      cases b <;> simp [LayoutState.area, advance, harea, hs]

theorem placeField_some (h : placeField w c st i = some st') : ∃ f, c.fields[i]? = some f := by
  unfold placeField at h
  split at h
  · cases h
  · exact ⟨_, by assumption⟩

/-- The loop places every field by the fields before it in the order. -/
theorem foldlM_placeField {js : List ℕ} (hnodup : js.Nodup)
    (h : js.foldlM (placeField w c) st = some st') :
    (∀ b, st'.area b = cursor (areaSize w c b) (st.area b) js) ∧
      (∀ i ∉ js, st'.byteOffset i = st.byteOffset i) ∧
      ∀ j i f, js[j]? = some i → c.fields[i]? = some f → ∃ n, sizeofTypeKind w f.reprKind = some n ∧
        st'.byteOffset i = start (areaSize w c f.isStatic) (st.area f.isStatic) js j n := by
  induction js generalizing st with
  | nil =>
    cases h
    exact ⟨fun _ => rfl, fun _ _ => rfl, fun j i f hj => by simp at hj⟩
  | cons k js ih =>
    rw [foldlM_cons] at h
    obtain ⟨st₁, hfirst, hrest⟩ := bind_eq_some_iff.mp h
    obtain ⟨hk, hjs⟩ := nodup_cons.mp hnodup
    obtain ⟨g, hg⟩ := placeField_some hfirst
    obtain ⟨n, hn, harea, hoff⟩ := placeField_spec hfirst hg
    obtain ⟨hends, hkeep, hstarts⟩ := ih hjs hrest
    refine ⟨fun b => ?_, fun i hi => ?_, fun j i f hj hf => ?_⟩
    · rw [hends, harea]
      rfl
    · rw [mem_cons, not_or] at hi
      rw [hkeep i hi.2, hoff, Function.update_of_ne hi.1]
    · cases j with
      | zero =>
        obtain rfl : k = i := by simpa using hj
        obtain rfl : g = f := some.inj (hg.symm.trans hf)
        exact ⟨n, hn, by rw [hkeep k hk, hoff, Function.update_self]; rfl⟩
      | succ j =>
        obtain ⟨m, hm, hstart⟩ := hstarts j i f (by simpa using hj) hf
        refine ⟨m, hm, ?_⟩
        rw [hstart, harea]
        rfl

theorem placementOrder_nodup (w : PointerWidth) (c : ClassFields) : (placementOrder w c).Nodup := by
  unfold placementOrder
  split
  · exact nodup_range
  · refine nodup_flatMap.mpr ⟨fun n _ => nodup_range.filter _, ?_⟩
    have hsizes : [8, 4, 2, 1].Pairwise fun a b : ℕ => a ≠ b := by decide
    refine hsizes.imp fun {a b} hab i ha hb => hab ?_
    have hi := of_decide_eq_true (mem_filter.mp ha).2
    have hi' := of_decide_eq_true (mem_filter.mp hb).2
    exact some.inj (hi.symm.trans hi')

theorem mem_placementOrder (hvoid : c.fields.all fun f => f.reprKind ≠ .void)
    (hf : c.fields[i]? = some f) : i ∈ placementOrder w c := by
  have hlt := (List.getElem?_eq_some_iff.mp hf).1
  unfold placementOrder
  split
  · exact mem_range.mpr hlt
  · have hkind : f.reprKind ≠ .void := by
      have hmem : f ∈ c.fields := mem_of_getElem? hf
      simpa using all_eq_true.mp hvoid f hmem
    obtain ⟨n, hn, hmem⟩ : ∃ n, sizeofTypeKind w f.reprKind = some n ∧ n ∈ [8, 4, 2, 1] := by
      cases hk : f.reprKind <;> cases w <;> simp_all [sizeofTypeKind, PointerWidth.bytes]
    refine mem_flatMap.mpr ⟨n, hmem, mem_filter.mpr ⟨mem_range.mpr hlt, ?_⟩⟩
    simp [fieldSize, hf, hn]

end

def areaBase (base : ℕ) (isStatic : Bool) : ℕ := if isStatic then 0 else base

/-- The fields of a class, placed from `base` on. -/
structure LaidOut (w : PointerWidth) (c : ClassFields) (base : ℕ) (l : FieldLayout) : Prop where
  instanceBytes : l.instanceBytes = cursor (areaSize w c false) base (placementOrder w c)
  staticBytes : l.staticBytes = cursor (areaSize w c true) 0 (placementOrder w c)
  offset : ∀ i f, c.fields[i]? = some f → ∃ j n, (placementOrder w c)[j]? = some i ∧
    sizeofTypeKind w f.reprKind = some n ∧
    l.byteOffset i = start (areaSize w c f.isStatic) (areaBase base f.isStatic)
      (placementOrder w c) j n

variable {w : PointerWidth}

theorem linkFields_laidOut {objHeader : ℕ} {super : Option FieldLayout}
    {c : ClassFields} {l : FieldLayout} (h : linkFields w objHeader super c = some l) :
    LaidOut w c ((super.map FieldLayout.instanceBytes).getD objHeader + c.classPadding.getD 0) l ∧
      l.staticReferences = (referenceFields c true).map (fun i =>
        UInt16.ofNat (l.byteOffset i / w.bytes)) ∧
      l.instanceReferences = (super.map FieldLayout.instanceReferences).getD [] ++
        (referenceFields c false).map fun i => UInt16.ofNat (l.byteOffset i / w.bytes) := by
  simp only [linkFields, ite_none_right_eq_some, map_eq_some_iff] at h
  obtain ⟨hvoid, st, hst, rfl⟩ := h
  obtain ⟨hends, -, hstarts⟩ := foldlM_placeField (placementOrder_nodup w c) hst
  refine ⟨⟨hends false, hends true, fun i f hf => ?_⟩, rfl, rfl⟩
  obtain ⟨j, hj⟩ := mem_iff_getElem?.mp (mem_placementOrder hvoid hf)
  obtain ⟨n, hn, hstart⟩ := hstarts j i f hj hf
  exact ⟨j, n, hj, hn, hstart⟩

namespace LaidOut

variable {w : PointerWidth} {c : ClassFields} {base : ℕ} {l : FieldLayout}

theorem mem_ownFields (h : LaidOut w c base l) {b : Bool} {p : PlacedField} :
    p ∈ ownFields w c l b ↔ ∃ i f n, c.fields[i]? = some f ∧ f.isStatic = b ∧
      sizeofTypeKind w f.reprKind = some n ∧ p = ⟨f.reprKind, l.byteOffset i, n⟩ := by
  simp only [ownFields, mem_filterMap, mem_range, bind_eq_some_iff,
    ite_none_right_eq_some, some.injEq]
  constructor
  · rintro ⟨i, -, f, hf, hb, rfl⟩
    obtain ⟨j, n, -, hn, -⟩ := h.offset i f hf
    exact ⟨i, f, n, hf, hb, hn, by rw [hn]; rfl⟩
  · rintro ⟨i, f, n, hf, hb, hn, rfl⟩
    exact ⟨i, (List.getElem?_eq_some_iff.mp hf).1, f, hf, hb, by rw [hn]; rfl⟩

theorem areaSize_eq {i n : ℕ} {f : DeclaredField} (hf : c.fields[i]? = some f)
    (hn : sizeofTypeKind w f.reprKind = some n) : areaSize w c f.isStatic i = some n := by
  simp [areaSize, hf, hn]

/-- Two fields of one area do not overlap. -/
theorem disjoint_of_ne (h : LaidOut w c base l) {i k m n : ℕ} {f g : DeclaredField}
    (hf : c.fields[i]? = some f) (hg : c.fields[k]? = some g) (hs : f.isStatic = g.isStatic)
    (hm : sizeofTypeKind w f.reprKind = some m) (hn : sizeofTypeKind w g.reprKind = some n)
    (hne : i ≠ k) : l.byteOffset i + m ≤ l.byteOffset k ∨ l.byteOffset k + n ≤ l.byteOffset i := by
  obtain ⟨a, m', ha, hm', hi⟩ := h.offset i f hf
  obtain ⟨b, n', hb, hn', hk⟩ := h.offset k g hg
  cases hm.symm.trans hm'
  cases hn.symm.trans hn'
  have hab : a ≠ b := by
    rintro rfl
    exact hne (some.inj (ha.symm.trans hb))
  have hsf := areaSize_eq hf hm
  have hsg := areaSize_eq hg hn
  rw [hi, hk, hs]
  rw [hs] at hsf
  rcases Nat.lt_or_gt_of_ne hab with hlt | hgt
  · exact .inl (start_ordered (areaSize_pos _) hlt ha hsf hsg)
  · exact .inr (start_ordered (areaSize_pos _) hgt hb hsg hsf)

theorem wellPlaced (h : LaidOut w c base l) (b : Bool) :
    WellPlaced (ownFields w c l b) (areaBase base b)
      (if b then l.staticBytes else l.instanceBytes) where
  aligned p hp := by
    obtain ⟨i, f, n, hf, -, hn, rfl⟩ := h.mem_ownFields.mp hp
    obtain ⟨j, n', -, hn', hoff⟩ := h.offset i f hf
    cases hn.symm.trans hn'
    show n ∣ l.byteOffset i
    rw [hoff]
    exact dvd_alignUp _ n
  bounds p hp := by
    obtain ⟨i, f, n, hf, rfl, hn, rfl⟩ := h.mem_ownFields.mp hp
    obtain ⟨j, n', hj, hn', hoff⟩ := h.offset i f hf
    cases hn.symm.trans hn'
    have hb : areaBase base f.isStatic ≤ _ ∧ _ :=
      start_bounds (areaSize_pos f.isStatic) hj (areaSize_eq hf hn)
    refine ⟨sizeofTypeKind_pos hn, ?_, ?_⟩
    · rw [hoff]
      exact hb.1
    · show l.byteOffset i + n ≤ _
      rw [hoff]
      cases hs : f.isStatic with
      | true =>
        rw [hs] at hb
        rw [if_pos rfl, h.staticBytes]
        exact hb.2
      | false =>
        rw [hs] at hb
        rw [if_neg Bool.false_ne_true, h.instanceBytes]
        exact hb.2
  disjoint := by
    unfold ownFields
    rw [pairwise_filterMap]
    refine nodup_range.imp fun {i k} hne p hp q hq => ?_
    simp only [bind_eq_some_iff, ite_none_right_eq_some, some.injEq] at hp hq
    obtain ⟨f, hf, hfb, rfl⟩ := hp
    obtain ⟨g, hg, hgb, rfl⟩ := hq
    obtain ⟨-, m, -, hm, -⟩ := h.offset i f hf
    obtain ⟨-, n, -, hn, -⟩ := h.offset k g hg
    have hdisj := h.disjoint_of_ne hf hg (hfb.trans hgb.symm) hm hn hne
    simpa [PlacedField.Disjoint, hm, hn] using hdisj

theorem referenceOffsets_ownFields (w : PointerWidth) (c : ClassFields) (l : FieldLayout)
    (b : Bool) : referenceOffsets (ownFields w c l b) = (referenceFields c b).map l.byteOffset := by
  unfold referenceOffsets ownFields referenceFields
  induction List.range c.fields.length with
  | nil => rfl
  | cons i is ih =>
    cases hf : c.fields[i]? with
    | none => simpa [hf] using ih
    | some f =>
      by_cases hb : f.isStatic = b <;> by_cases hk : f.reprKind = .reference <;>
        simpa [hf, hb, hk, filterMap_cons] using ih

theorem mem_referenceFields {b : Bool} {i : ℕ} : i ∈ referenceFields c b ↔
    ∃ f, c.fields[i]? = some f ∧ f.reprKind = .reference ∧ f.isStatic = b := by
  simp only [referenceFields, List.mem_filter, List.mem_range, Option.any_eq_true, Bool.and_eq_true,
    decide_eq_true_eq]
  constructor
  · rintro ⟨-, f, hf, hk, hb⟩
    exact ⟨f, hf, hk, hb⟩
  · rintro ⟨f, hf, hk, hb⟩
    exact ⟨(List.getElem?_eq_some_iff.mp hf).1, f, hf, hk, hb⟩

/-- The places of the references are those that `SlotsFit` speaks of. -/
theorem slotsFit_iff (h : LaidOut w c base l) (b : Bool) :
    SlotsFit w (areaBase base b) c b ↔
      ∀ x ∈ referenceOffsets (ownFields w c l b), x / w.bytes < 2 ^ 16 := by
  rw [referenceOffsets_ownFields, List.forall_mem_map]
  constructor
  · intro hfit i hi
    obtain ⟨f, hf, hk, rfl⟩ := mem_referenceFields.mp hi
    obtain ⟨j, n, hj, hn, hoff⟩ := h.offset i f hf
    rw [hk, sizeofTypeKind, some.injEq] at hn
    rw [hoff, ← hn]
    exact hfit j i hj hi
  · intro hfit j i hj hi
    obtain ⟨f, hf, hk, rfl⟩ := mem_referenceFields.mp hi
    obtain ⟨j', n, hj', hn, hoff⟩ := h.offset i f hf
    rw [hk, sizeofTypeKind, some.injEq] at hn
    have hjj : j = j' := by
      have hlt := (List.getElem?_eq_some_iff.mp hj).1
      exact (getElem?_inj hlt (placementOrder_nodup w c)).mp (hj.trans hj'.symm)
    have hslot := hfit i hi
    rw [hoff, ← hn] at hslot
    rwa [hjj]

theorem dvd_referenceOffsets (h : LaidOut w c base l) {b : Bool} {x : ℕ}
    (hx : x ∈ referenceOffsets (ownFields w c l b)) : w.bytes ∣ x := by
  obtain ⟨p, hp, rfl⟩ := mem_map.mp hx
  obtain ⟨hmem, hkind⟩ := mem_filter.mp hp
  have halign := (h.wellPlaced b).aligned p hmem
  obtain ⟨i, f, n, -, -, hn, rfl⟩ := h.mem_ownFields.mp hmem
  have hk : f.reprKind = .reference := of_decide_eq_true hkind
  rw [hk, sizeofTypeKind, some.injEq] at hn
  subst hn
  exact halign

end LaidOut

/-! ### The lists of the collector -/

/-- `byte_offset / sizeof(void *)`, stored in a `u16`. -/
def encodeOffsets (w : PointerWidth) (xs : List ℕ) : List UInt16 :=
  xs.map fun x => UInt16.ofNat (x / w.bytes)

theorem scaledUp_encodeOffsets_perm_iff {xs : List ℕ} (hdvd : ∀ x ∈ xs, w.bytes ∣ x) :
    (scaledUp w (encodeOffsets w xs)).Perm xs ↔ ∀ x ∈ xs, x / w.bytes < 2 ^ 16 := by
  constructor
  · intro hperm x hx
    obtain ⟨r, -, hr⟩ := mem_map.mp (hperm.mem_iff.mpr hx)
    rw [← hr, Nat.mul_div_cancel _ w.bytes_pos]
    exact r.toNat_lt
  · intro hfit
    have hsame : scaledUp w (encodeOffsets w xs) = xs := by
      rw [scaledUp, encodeOffsets, List.map_map]
      conv_rhs => rw [← map_id xs]
      refine map_congr_left fun x hx => ?_
      have hmod : x / w.bytes % 2 ^ 16 = x / w.bytes := Nat.mod_eq_of_lt (hfit x hx)
      simp only [Function.comp_apply, UInt16.toNat_ofNat', hmod, id_eq]
      exact Nat.div_mul_cancel (hdvd x hx)
    rw [hsame]

theorem WellPlaced.offsets_nodup {fs : List PlacedField} {lower upper : ℕ}
    (h : WellPlaced fs lower upper) : (referenceOffsets fs).Nodup := by
  unfold referenceOffsets
  rw [List.Nodup, pairwise_map]
  have hsub := h.disjoint.filter fun f => decide (f.kind = .reference)
  refine hsub.imp_of_mem fun {a b} ha hb hdisj heq => ?_
  have hposa := (h.bounds a (mem_filter.mp ha).1).1
  have hposb := (h.bounds b (mem_filter.mp hb).1).1
  rcases hdisj with hle | hle <;> omega

theorem WellPlaced.append {fs gs : List PlacedField} {lower middle upper : ℕ}
    (h : WellPlaced fs lower middle) (k : WellPlaced gs middle upper) (hlm : lower ≤ middle)
    (hmu : middle ≤ upper) : WellPlaced (fs ++ gs) lower upper where
  aligned f hf := (mem_append.mp hf).elim (h.aligned f) (k.aligned f)
  bounds f hf := by
    rcases mem_append.mp hf with hf | hf
    · obtain ⟨hpos, hlow, hup⟩ := h.bounds f hf
      exact ⟨hpos, hlow, hup.trans hmu⟩
    · obtain ⟨hpos, hlow, hup⟩ := k.bounds f hf
      exact ⟨hpos, hlm.trans hlow, hup⟩
  disjoint := by
    refine pairwise_append.mpr ⟨h.disjoint, k.disjoint, fun a ha b hb => .inl ?_⟩
    exact (h.bounds a ha).2.2.trans (k.bounds b hb).2.1

structure ChainLaidOut (w : PointerWidth) (objHeader : ℕ) (cs : List ClassFields)
    (ls : List FieldLayout) : Prop where
  ends : (ls.head?.map FieldLayout.instanceBytes).getD objHeader = chainEnd w objHeader cs
  lower : objHeader ≤ chainEnd w objHeader cs
  placed : WellPlaced (instanceFields w cs ls) objHeader (chainEnd w objHeader cs)
  references : (ls.head?.map FieldLayout.instanceReferences).getD [] =
    encodeOffsets w (referenceOffsets (instanceFields w cs ls))
  divides : ∀ x ∈ referenceOffsets (instanceFields w cs ls), w.bytes ∣ x
  fits : InstanceSlotsFit w objHeader cs ↔
    ∀ x ∈ referenceOffsets (instanceFields w cs ls), x / w.bytes < 2 ^ 16

theorem ownFields_above {objHeader : ℕ} {c : ClassFields}
    {supers : List ClassFields} {l : FieldLayout}
    (h : LaidOut w c (chainEnd w objHeader supers + c.classPadding.getD 0) l) :
    WellPlaced (ownFields w c l false) (chainEnd w objHeader supers) l.instanceBytes := by
  obtain ⟨haligned, hbounds, hdisjoint⟩ := h.wellPlaced false
  refine ⟨haligned, fun f hf => ?_, hdisjoint⟩
  obtain ⟨hpos, hlow, hup⟩ := hbounds f hf
  exact ⟨hpos, (Nat.le_add_right _ _).trans hlow, hup⟩

theorem linkChain_laidOut {objHeader : ℕ} {cs : List ClassFields}
    {ls : List FieldLayout} (h : linkChain w objHeader cs = some ls) :
    ChainLaidOut w objHeader cs ls := by
  induction cs generalizing ls with
  | nil =>
    cases h
    refine ⟨rfl, le_rfl, ⟨?_, ?_, List.Pairwise.nil⟩, rfl, ?_, ?_⟩ <;>
      simp [instanceFields, referenceOffsets, InstanceSlotsFit]
  | cons c supers ih =>
    simp only [linkChain, bind_eq_some_iff, map_eq_some_iff] at h
    obtain ⟨layouts, hsupers, l, hl, rfl⟩ := h
    have hsuper := ih hsupers
    obtain ⟨hlaid, -, hrefs⟩ := linkFields_laidOut hl
    rw [hsuper.ends] at hlaid
    rw [hsuper.references] at hrefs
    have habove := ownFields_above hlaid
    have hend : l.instanceBytes = chainEnd w objHeader (c :: supers) := hlaid.instanceBytes
    have hmono : chainEnd w objHeader supers ≤ l.instanceBytes := by
      rw [hend]
      exact (Nat.le_add_right _ _).trans (le_cursor (areaSize_pos false) _ _)
    have hsplit : referenceOffsets (instanceFields w (c :: supers) (l :: layouts)) =
        referenceOffsets (instanceFields w supers layouts) ++
          referenceOffsets (ownFields w c l false) := by
      simp [instanceFields, referenceOffsets]
    refine ⟨hend, ?_, ?_, ?_, ?_, ?_⟩
    · exact hsuper.lower.trans (hend ▸ hmono)
    · exact hend ▸ hsuper.placed.append habove hsuper.lower hmono
    · rw [hsplit, encodeOffsets, map_append]
      show l.instanceReferences = _
      rw [hrefs, LaidOut.referenceOffsets_ownFields, List.map_map]
      rfl
    · intro x hx
      rw [hsplit] at hx
      exact (mem_append.mp hx).elim (hsuper.divides x) hlaid.dvd_referenceOffsets
    · have hown := hlaid.slotsFit_iff false
      rw [hsplit, forall_mem_append, ← hsuper.fits, ← hown, and_comm]
      rfl

/-- For every linked class above any superclasses, the fields lie apart, aligned and within bounds,
and the lists of the collector are right, exactly when no reference of an instance or of the static
area begins at word `2 ^ 16` or beyond. -/
theorem fieldLayout_sound_iff {w : PointerWidth} {objHeader : ℕ} {c : ClassFields}
    {supers : List ClassFields} {l : FieldLayout} {layouts : List FieldLayout}
    (h : linkChain w objHeader (c :: supers) = some (l :: layouts)) :
    LayoutSound w objHeader c supers l layouts ↔
      InstanceSlotsFit w objHeader (c :: supers) ∧ SlotsFit w 0 c true := by
  have hchain := linkChain_laidOut h
  simp only [linkChain, bind_eq_some_iff, map_eq_some_iff, cons.injEq] at h
  obtain ⟨layouts', hsupers, l', hl, hl', hlayouts⟩ := h
  rw [hlayouts] at hsupers
  rw [hl', hlayouts] at hl
  have hsuper := linkChain_laidOut hsupers
  obtain ⟨hlaid, hstatic, -⟩ := linkFields_laidOut hl
  have hbytes : l.instanceBytes = chainEnd w objHeader (c :: supers) := hchain.ends
  have hrefs : l.instanceReferences = encodeOffsets w
    (referenceOffsets (instanceFields w (c :: supers) (l :: layouts))) := hchain.references
  have hstaticRefs : l.staticReferences =
      encodeOffsets w (referenceOffsets (ownFields w c l true)) := by
    rw [hstatic, LaidOut.referenceOffsets_ownFields, encodeOffsets, List.map_map]
    rfl
  have hplaced := hlaid.wellPlaced true
  have hstaticPerm := scaledUp_encodeOffsets_perm_iff
    (fun x hx => hlaid.dvd_referenceOffsets (b := true) hx)
  rw [hchain.fits, ← scaledUp_encodeOffsets_perm_iff hchain.divides, ← hrefs]
  rw [show SlotsFit w 0 c true ↔ _ from hlaid.slotsFit_iff true, ← hstaticPerm, ← hstaticRefs]
  constructor
  · intro hsound
    exact ⟨hsound.instanceReferences, hsound.staticReferences⟩
  · rintro ⟨hinstance, hstaticPerm⟩
    refine ⟨hsupers, hbytes ▸ hchain.placed, ?_, hplaced, hinstance, ?_, hstaticPerm, ?_⟩
    · rw [hsuper.ends] at hlaid ⊢
      exact ownFields_above hlaid
    · exact hinstance.nodup_iff.mpr hchain.placed.offsets_nodup
    · exact hstaticPerm.nodup_iff.mpr hplaced.offsets_nodup

/-! ### Linking succeeds, and large classes -/

/-- Fields that have a size are placed. -/
theorem linkFields_isSome {c : ClassFields}
    (hvoid : c.fields.all fun f => f.reprKind ≠ .void) (objHeader : ℕ)
    (super : Option FieldLayout) : ∃ l, linkFields w objHeader super c = some l := by
  have hloop : ∀ (js : List ℕ) (st : LayoutState), (∀ i ∈ js, i < c.fields.length) →
      ∃ st', js.foldlM (placeField w c) st = some st' := by
    intro js
    induction js with
    | nil => exact fun st _ => ⟨st, rfl⟩
    | cons i js ih =>
      intro st hjs
      have hi := hjs i mem_cons_self
      have hf : c.fields[i]? = some c.fields[i] := getElem?_eq_getElem hi
      have hkind : c.fields[i].reprKind ≠ .void := by
        simpa using all_eq_true.mp hvoid _ (getElem_mem hi)
      obtain ⟨st₁, h₁⟩ : ∃ st₁, placeField w c st i = some st₁ := by
        simp only [placeField, hf]
        cases hk : c.fields[i].reprKind <;> first
          | exact absurd hk hkind
          | (split <;> exact ⟨_, rfl⟩)
      obtain ⟨st', h'⟩ := ih st₁ fun k hk => hjs k (mem_cons_of_mem _ hk)
      exact ⟨st', by rw [foldlM_cons, h₁]; exact h'⟩
  have horder : ∀ i ∈ placementOrder w c, i < c.fields.length := by
    intro i hi
    unfold placementOrder at hi
    split at hi
    · exact mem_range.mp hi
    · obtain ⟨n, -, hn⟩ := mem_flatMap.mp hi
      exact mem_range.mp (mem_filter.mp hn).1
  obtain ⟨st, hst⟩ := hloop _ ⟨0, (super.map FieldLayout.instanceBytes).getD objHeader +
    c.classPadding.getD 0, fun _ => 0⟩ horder
  simp only [linkFields, if_pos hvoid, hst, map_some]
  exact ⟨_, rfl⟩

/-- A class of `n` fields of type `long` and one of type `Object`. -/
def wideClass (n : ℕ) : ClassFields where
  fields := List.replicate n ⟨.ofKind .long, false⟩ ++ [⟨.ofKind .reference, false⟩]
  classPadding := none

theorem wideClass_long {n i : ℕ} (hi : i < n) :
    (wideClass n).fields[i]? = some ⟨.ofKind .long, false⟩ := by
  simp [wideClass, getElem?_append_left, hi]

theorem wideClass_reference (n : ℕ) :
    (wideClass n).fields[n]? = some ⟨.ofKind .reference, false⟩ := by
  simp [wideClass]

theorem wideClass_order (n : ℕ) :
    placementOrder .bits32 (wideClass n) = List.range (n + 1) := by
  have hlen : (wideClass n).fields.length = n + 1 := by simp [wideClass]
  have hlong : ∀ i ∈ List.range n, fieldSize .bits32 (wideClass n) i = some 8 := by
    intro i hi
    rw [fieldSize, wideClass_long (mem_range.mp hi)]
    rfl
  have href : fieldSize .bits32 (wideClass n) n = some 4 := by
    rw [fieldSize, wideClass_reference]
    rfl
  have hbucket : ∀ m, (List.range (n + 1)).filter
      (fun i => fieldSize .bits32 (wideClass n) i = some m) =
        (if m = 8 then List.range n else []) ++ if m = 4 then [n] else [] := by
    intro m
    rw [range_succ, filter_append]
    congr 1
    · by_cases hm : m = 8
      · rw [if_pos hm, filter_eq_self]
        intro i hi
        simp [hlong i hi, hm]
      · rw [if_neg hm, filter_eq_nil_iff]
        intro i hi
        simp [hlong i hi, Ne.symm hm]
    · by_cases hm : m = 4
      · simp [href, hm]
      · simp [href, hm, Ne.symm hm]
  rw [placementOrder, if_neg (by simp [wideClass]), reorderFieldsForCompactness, hlen]
  simp only [hbucket, flatMap_cons, flatMap_nil]
  simp [range_succ]

theorem wideClass_cursor {n : ℕ} (k : ℕ) (hk : k ≤ n) :
    cursor (areaSize .bits32 (wideClass n) false) 16 (List.range k) = 16 + 8 * k := by
  induction k with
  | zero => rfl
  | succ k ih =>
    have hsize : areaSize .bits32 (wideClass n) false k = some 8 := by
      rw [areaSize, wideClass_long (by omega)]
      rfl
    rw [range_succ, cursor, foldl_append]
    show advance _ (cursor _ 16 (List.range k)) k = _
    rw [ih (by omega), advance, hsize]
    simp only [alignUp]
    omega

/-- A class of two fields below `Object`. -/
theorem fieldLayout_sound_twoFields :
    ∃ l layouts, linkChain .bits32 16
        [⟨[⟨.ofKind .boolean, false⟩, ⟨.ofKind .reference, false⟩], none⟩, ⟨[], none⟩] =
          some (l :: layouts) ∧
      l.instanceBytes = 24 ∧
      LayoutSound .bits32 16 ⟨[⟨.ofKind .boolean, false⟩, ⟨.ofKind .reference, false⟩], none⟩
        [⟨[], none⟩] l layouts := by
  refine ⟨_, _, rfl, rfl, (fieldLayout_sound_iff rfl).mpr ⟨⟨?_, ?_, trivial⟩, ?_⟩⟩
  · intro j i hj _
    have hlt : j < 2 := (List.getElem?_eq_some_iff.mp hj).1
    obtain rfl | rfl : j = 0 ∨ j = 1 := by omega
    · decide
    · decide
  · intro j i hj
    cases hj
  · intro j i _ hi
    have hnone : i ∉ referenceFields
        ⟨[⟨.ofKind .boolean, false⟩, ⟨.ofKind .reference, false⟩], none⟩ true := by
      rw [show referenceFields _ true = [] from rfl]
      exact not_mem_nil
    exact absurd hi hnone

/-- In a class of 32766 fields of type `long` the reference lies at word `2 ^ 16`, and the slot
that is stored for it is that of the object header. -/
theorem fieldLayout_truncated_wideClass :
    ∃ l layouts, linkChain .bits32 16 [wideClass 32766, ⟨[], none⟩] = some (l :: layouts) ∧
      ¬ LayoutSound .bits32 16 (wideClass 32766) [⟨[], none⟩] l layouts := by
  have hvoid : (wideClass 32766).fields.all fun f => f.reprKind ≠ .void := by
    rw [List.all_eq_true]
    intro f hf
    rcases mem_append.mp hf with hf | hf
    · rw [eq_of_mem_replicate hf]
      rfl
    · rw [mem_singleton.mp hf]
      rfl
  have hobject : ∃ layouts, linkChain .bits32 16 [⟨[], none⟩] = some layouts := ⟨_, rfl⟩
  obtain ⟨layouts, hlayouts⟩ := hobject
  obtain ⟨l, hl⟩ := linkFields_isSome (w := .bits32) hvoid 16 layouts.head?
  have hlinked : linkChain .bits32 16 [wideClass 32766, ⟨[], none⟩] = some (l :: layouts) := by
    rw [linkChain, hlayouts, bind_some, hl]
    rfl
  refine ⟨l, layouts, hlinked, fun hsound => ?_⟩
  have hmem : 32766 ∈ referenceFields (wideClass 32766) false :=
    LaidOut.mem_referenceFields.mpr ⟨_, wideClass_reference _, rfl, rfl⟩
  have hfit := ((fieldLayout_sound_iff hlinked).mp hsound).1.1 32766 32766
    (by rw [wideClass_order]; simp) hmem
  rw [start, wideClass_order, take_range] at hfit
  have hbase : chainEnd .bits32 16 [⟨[], none⟩] + (wideClass 32766).classPadding.getD 0 = 16 := rfl
  rw [hbase, show min 32766 (32766 + 1) = 32766 from rfl, wideClass_cursor 32766 le_rfl] at hfit
  revert hfit
  decide

end TraceJvm
