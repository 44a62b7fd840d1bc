import TraceJvm.InstanceOf
import TraceJvm.ClassInitSafety
import TraceJvm.FieldLayout

/-! Descriptors in a state from `CD_STATE_LINKED` on have their tables. Linking a class marks all its
array classes as linked and sets up at most two of them, and it takes a supertype whose linking has
failed for a linked one; the runs below leave these two situations out. -/
namespace TraceJvm

open Transition List

structure LayoutWorld extends TypeWorld where
  width : PointerWidth
  /-- `sizeof(obj_header)` -/
  objHeader : ℕ
  fieldsOf : ℕ → ClassFields

namespace LayoutWorld

variable (W : LayoutWorld)

/-- No declared field has the type `V`, which `allocate_field` does not expect. -/
def plainFields (c : ℕ) : Bool := (W.fieldsOf c).fields.all fun f => f.reprKind ≠ .void

structure BootClasses : Prop extends W.WellFormed where
  ordinary : ∀ p ∈ [W.object, W.cloneable, W.serializable],
    W.isPrimitive p = false ∧ W.plainFields p = true

/-- The layout of a class, which `link_class` computes directly before `set_up_function_tables`
from the layout of its superclass. -/
def layoutOf (s : TypeVm) (c : ℕ) : Option FieldLayout :=
  if s.setUp ⟨c, 0⟩ then
    match _h : W.superClass c with
    | none => linkFields W.width W.objHeader none (W.fieldsOf c)
    | some p => (layoutOf s p).bind fun l => linkFields W.width W.objHeader (some l) (W.fieldsOf c)
  else none
termination_by c
decreasing_by exact W.super_lt _h

structure FullyLinked (s : TypeVm) (r : ClassRef) : Prop where
  display : s.hierarchy r ≠ [] ∧ s.hierarchy r = TypeVm.displayOf W.toClassWorld s r
  functionTables : s.setUp r = true
  layout : r.dims = 0 → (W.layoutOf s r.base).isSome

def LinkedAbove (s : TypeVm) (r : ClassRef) : Prop :=
  ∀ p, W.Supertype r p → W.FullyLinked s p

/-- The classes that a call of `link_class` on `r` links. -/
def linkedBy (s : TypeVm) : ℕ → ClassRef → List ClassRef
  | 0, _ => []
  | depth + 1, r =>
      if s.vm.state r ≠ .loaded then []
      else r :: (W.supers r ++ (W.baseComponent r).toList).flatMap (linkedBy s depth)

/-- Nothing stands in the way of linking `q` in a call on `r`: the supertypes of `q` are still to be
linked or have their tables, and so have its array classes, apart from `r` itself and from the
one-dimensional array class of a class that is still to be linked. -/
def linkReady (s : TypeVm) (r q : ClassRef) : Bool :=
  (W.supers q).all (fun p => s.vm.state p = .loaded || s.setUp p) &&
    (List.range (s.vm.arrayDims q.base)).all (fun d => s.setUp ⟨q.base, d + 1⟩ ||
      (⟨q.base, d + 1⟩ : ClassRef) = r || d = 0 && s.vm.state ⟨q.base, 0⟩ = .loaded) &&
    (q.dims ≠ 0 || W.plainFields q.base)

def linksWhole (s : TypeVm) (r : ClassRef) : Bool :=
  (W.linkedBy s (W.linkDepth r) r).all (W.linkReady s r)

/-- The class that a transition links, other than a newly created array class. -/
def linkTarget (s : TypeVm) : InitEvent → Option ClassRef
  | .link _ r => some r
  | .poll t _ =>
      match s.vm.calls t with
      | ⟨r, .enter, _⟩ :: _ => if W.kind r = .ordinaryArray then none else some r
      | _ => none
  | _ => none

def linksWell (s : TypeVm) (e : InitEvent) : Bool :=
  (W.linkTarget s e).all (W.linksWhole s)

end LayoutWorld

/-- What linking keeps. The facts about the states of a class and of its array classes are left open
for the family `busy`, whose array class is being linked. -/
structure LinkedInv (W : LayoutWorld) (busy : Option ℕ) (s : TypeVm) : Prop where
  boot : ∀ p ∈ [W.object, W.cloneable, W.serializable],
    s.vm.state ⟨p, 0⟩ ≠ .loaded ∧ s.setUp ⟨p, 0⟩ = true
  primitive : ∀ c, W.isPrimitive c = true →
    ClassState.linked.rank ≤ (s.vm.state ⟨c, 0⟩).rank
  tables : ∀ r, s.setUp r = true → s.hierarchy r ≠ [] ∧
    (∀ p ∈ W.supers r, s.setUp p = true) ∧ (r.dims = 0 → W.plainFields r.base = true)
  linked : ∀ r, busy ≠ some r.base → W.kind r ≠ .primitive →
    ClassState.linked.rank ≤ (s.vm.state r).rank → s.setUp r = true
  unlinked : ∀ r : ClassRef, busy ≠ some r.base → s.vm.state ⟨r.base, 0⟩ = .loaded →
    (s.vm.state r).rank < ClassState.linked.rank
  arrays : ∀ c, busy ≠ some c → ClassState.linked.rank ≤ (s.vm.state ⟨c, 0⟩).rank →
    ∀ d ≤ s.vm.arrayDims c, ClassState.linked.rank ≤ (s.vm.state ⟨c, d⟩).rank
  uniform : ∀ c, busy ≠ some c → ∀ d < s.vm.arrayDims c, ∀ d' < s.vm.arrayDims c,
    s.vm.state ⟨c, d + 1⟩ = s.vm.state ⟨c, d' + 1⟩

/-- A part of linking that touches no class from `n` on and moves only classes that are loaded. -/
structure LinkStep (W : LayoutWorld) (busy : Option ℕ) (n : ℕ) (s s' : TypeVm) : Prop where
  inv : LinkedInv W busy s'
  setUp : ∀ r, s.setUp r = true → s'.setUp r = true
  display : ∀ r, s.hierarchy r ≠ [] → s'.hierarchy r ≠ []
  arrayDims : s'.vm.arrayDims = s.vm.arrayDims
  settled : ∀ c, s.vm.state ⟨c, 0⟩ ≠ .loaded → s'.vm.state ⟨c, 0⟩ = s.vm.state ⟨c, 0⟩
  above : ∀ r : ClassRef, n ≤ r.base → s'.vm.state r = s.vm.state r
  beyond : ∀ r : ClassRef, s.vm.arrayDims r.base < r.dims → s'.vm.state r = s.vm.state r

/-- Every class that has left `loaded` has its tables. -/
def TablesCompleted (s s' : TypeVm) : Prop :=
  ∀ c, s.vm.state ⟨c, 0⟩ = .loaded → s'.vm.state ⟨c, 0⟩ = .loaded ∨ s'.setUp ⟨c, 0⟩ = true

/-- The result of `link_class` on a class. -/
structure LinkResult (W : LayoutWorld) (busy : Option ℕ) (s : TypeVm) (c : ℕ)
    (l : ℤ × TypeVm) : Prop where
  step : LinkStep W busy (c + 1) s l.2
  past : l.2.vm.state ⟨c, 0⟩ ≠ .loaded
  completed : l.1 = 0 → TablesCompleted s l.2
  failed : l.1 ≠ 0 → l.2.vm.state ⟨c, 0⟩ = .linkageError
  arrayClass : l.1 = 0 → s.vm.state ⟨c, 0⟩ = .loaded → 0 < s.vm.arrayDims c →
    ClassState.linked.rank ≤ (s.vm.state ⟨c, 1⟩).rank ∨ l.2.setUp ⟨c, 1⟩ = true

/-- Nothing stands in the way of linking `p` in a call on `x`. -/
def LinkReady (W : LayoutWorld) (s : TypeVm) (x : ClassRef) (depth : ℕ) (p : ClassRef) : Prop :=
  ∀ q ∈ W.linkedBy s depth p, W.linkReady s x q = true

section Calls

variable {W : LayoutWorld} {busy : Option ℕ} {n : ℕ} {s s' s'' : TypeVm} {x : ClassRef}

theorem LinkStep.refl (h : LinkedInv W busy s) (n : ℕ) : LinkStep W busy n s s :=
  ⟨h, fun _ h => h, fun _ h => h, rfl, fun _ _ => rfl, fun _ _ => rfl, fun _ _ => rfl⟩

theorem LinkStep.trans (h : LinkStep W busy n s s') (k : LinkStep W busy n s' s'') :
    LinkStep W busy n s s'' where
  inv := k.inv
  setUp r hr := k.setUp r (h.setUp r hr)
  display r hr := k.display r (h.display r hr)
  arrayDims := k.arrayDims.trans h.arrayDims
  settled c hc := by
    have hs := h.settled c hc
    rw [k.settled c (by rwa [hs]), hs]
  above r hr := (k.above r hr).trans (h.above r hr)
  beyond r hr := (k.beyond r (by rwa [h.arrayDims])).trans (h.beyond r hr)

theorem LinkStep.mono {m : ℕ} (h : LinkStep W busy n s s') (hnm : n ≤ m) :
    LinkStep W busy m s s' := { h with above := fun r hr => h.above r (hnm.trans hr) }

variable {p : ClassRef}

theorem LinkStep.loaded (h : LinkStep W busy n s s') (hp : p.dims = 0)
    (hl : s'.vm.state p = .loaded) : s.vm.state p = .loaded := by
  obtain ⟨c, d⟩ := p
  obtain rfl : d = 0 := hp
  by_contra hne
  rw [h.settled c hne] at hl
  exact hne hl

theorem TablesCompleted.trans (h : TablesCompleted s s') (k : LinkStep W busy n s' s'')
    (hk : TablesCompleted s' s'') : TablesCompleted s s'' := by
  intro c hc
  rcases h c hc with hl | hset
  · exact hk c hl
  · exact .inr (k.setUp _ hset)

namespace LayoutWorld

theorem linkReady_iff {q : ClassRef} : W.linkReady s x q = true ↔
    (∀ p ∈ W.supers q, s.vm.state p = .loaded ∨ s.setUp p = true) ∧
    (∀ d < s.vm.arrayDims q.base, s.setUp ⟨q.base, d + 1⟩ = true ∨
      (⟨q.base, d + 1⟩ : ClassRef) = x ∨ d = 0 ∧ s.vm.state ⟨q.base, 0⟩ = .loaded) ∧
    (q.dims = 0 → W.plainFields q.base = true) := by
  simp only [linkReady, Bool.and_eq_true, all_eq_true, Bool.or_eq_true, decide_eq_true_eq,
    mem_range, and_assoc, or_assoc, ne_eq, decide_not, Bool.not_eq_true', decide_eq_false_iff_not,
    imp_iff_not_or]

/-- What is linked later in a call was to be linked at its beginning. -/
theorem mem_linkedBy {depth : ℕ} {p q : ClassRef}
    (hstate : ∀ r : ClassRef, r.dims = 0 → s'.vm.state r = .loaded → s.vm.state r = .loaded)
    (hp : p.dims = 0) (hq : q ∈ W.linkedBy s' depth p) :
    q ∈ W.linkedBy s depth p ∧ q.dims = 0 ∧ s'.vm.state q = .loaded := by
  induction depth generalizing p with
  | zero => simp [linkedBy] at hq
  | succ depth ih =>
    have hbase : W.baseComponent p = none := by simp [Hierarchy.baseComponent, hp]
    simp only [linkedBy, hbase, Option.toList_none, append_nil] at hq ⊢
    split at hq
    · simp at hq
    · rename_i hl
      have hs' : s'.vm.state p = .loaded := not_not.mp hl
      rw [if_neg (not_not.mpr (hstate p hp hs'))]
      rcases mem_cons.mp hq with rfl | hq
      · exact ⟨mem_cons_self, hp, hs'⟩
      · obtain ⟨r, hr, hq⟩ := mem_flatMap.mp hq
        obtain ⟨hmem, hdims, hst⟩ := ih (W.supers_dims hr) hq
        exact ⟨mem_cons_of_mem _ (mem_flatMap.mpr ⟨r, hr, hmem⟩), hdims, hst⟩

end LayoutWorld

variable {depth : ℕ}

theorem LinkReady.mono (h : LinkReady W s x depth p) (hp : p.dims = 0)
    (hset : ∀ r, s.setUp r = true → s'.setUp r = true) (hdims : s'.vm.arrayDims = s.vm.arrayDims)
    (hloaded : ∀ r : ClassRef, r.dims = 0 → s'.vm.state r = .loaded → s.vm.state r = .loaded)
    (hc : TablesCompleted s s') : LinkReady W s' x depth p := by
  intro q hq
  obtain ⟨hmem, hq0, hst⟩ := LayoutWorld.mem_linkedBy hloaded hp hq
  obtain ⟨hsupers, harrays, hfields⟩ := LayoutWorld.linkReady_iff.mp (h q hmem)
  refine LayoutWorld.linkReady_iff.mpr ⟨fun r hr => ?_, fun d hd => ?_, hfields⟩
  · have hr0 := W.supers_dims hr
    obtain ⟨c, k⟩ := r
    obtain rfl : k = 0 := hr0
    rcases hsupers _ hr with hl | hs
    · exact hc c hl
    · exact .inr (hset _ hs)
  · rw [hdims] at hd
    rcases harrays d hd with hs | hx | ⟨h0, -⟩
    · exact .inl (hset _ hs)
    · exact .inr (.inl hx)
    · obtain ⟨c, k⟩ := q
      obtain rfl : k = 0 := hq0
      exact .inr (.inr ⟨h0, hst⟩)

theorem LinkReady.step {p : ClassRef} (h : LinkReady W s x depth p) (hp : p.dims = 0)
    (hs : LinkStep W busy n s s') (hc : TablesCompleted s s') : LinkReady W s' x depth p :=
  h.mono hp hs.setUp hs.arrayDims (fun _ => hs.loaded) hc

/-- A change within the family of `c`, after which `c` is no longer merely loaded. -/
theorem LinkedInv.family {busy' : Option ℕ} {c : ℕ} (h : LinkedInv W busy s)
    (hbusy : ∀ b, b ≠ c → busy' ≠ some b → busy ≠ some b)
    (hdims : s'.vm.arrayDims = s.vm.arrayDims)
    (hother : ∀ r : ClassRef, r.base ≠ c → s'.vm.state r = s.vm.state r)
    (hset : ∀ r, s.setUp r = true → s'.setUp r = true)
    (hpast : s'.vm.state ⟨c, 0⟩ ≠ .loaded)
    (hprim : W.isPrimitive c = true → ClassState.linked.rank ≤ (s'.vm.state ⟨c, 0⟩).rank)
    (htables : ∀ r, s'.setUp r = true → s'.hierarchy r ≠ [] ∧
      (∀ p ∈ W.supers r, s'.setUp p = true) ∧ (r.dims = 0 → W.plainFields r.base = true))
    (hlinked : busy' ≠ some c → ∀ d, W.kind ⟨c, d⟩ ≠ .primitive →
      ClassState.linked.rank ≤ (s'.vm.state ⟨c, d⟩).rank → s'.setUp ⟨c, d⟩ = true)
    (harrays : busy' ≠ some c → ClassState.linked.rank ≤ (s'.vm.state ⟨c, 0⟩).rank →
      ∀ d ≤ s.vm.arrayDims c, ClassState.linked.rank ≤ (s'.vm.state ⟨c, d⟩).rank)
    (huniform : busy' ≠ some c → ∀ d < s.vm.arrayDims c, ∀ d' < s.vm.arrayDims c,
      s'.vm.state ⟨c, d + 1⟩ = s'.vm.state ⟨c, d' + 1⟩) : LinkedInv W busy' s' where
  boot p hp := by
    obtain ⟨hl, hs⟩ := h.boot p hp
    refine ⟨?_, hset _ hs⟩
    by_cases hpc : p = c
    · subst hpc
      exact hpast
    · rwa [hother _ hpc]
  primitive b hb := by
    by_cases hbc : b = c
    · subst hbc
      exact hprim hb
    · rw [hother _ hbc]
      exact h.primitive b hb
  tables := htables
  linked r hr hk hrank := by
    by_cases hrc : r.base = c
    · subst hrc
      exact hlinked hr r.dims hk hrank
    · rw [hother r hrc] at hrank
      exact hset r (h.linked r (hbusy _ hrc hr) hk hrank)
  unlinked r hr hl := by
    by_cases hrc : r.base = c
    · rw [hrc] at hl
      exact absurd hl hpast
    · rw [hother r hrc]
      rw [hother ⟨r.base, 0⟩ hrc] at hl
      exact h.unlinked r (hbusy _ hrc hr) hl
  arrays b hb hrank d hd := by
    rw [hdims] at hd
    by_cases hbc : b = c
    · subst hbc
      exact harrays hb hrank d hd
    · rw [hother _ hbc] at hrank ⊢
      exact h.arrays b (hbusy b hbc hb) hrank d hd
  uniform b hb d hd d' hd' := by
    rw [hdims] at hd hd'
    by_cases hbc : b = c
    · subst hbc
      exact huniform hb d hd d' hd'
    · rw [hother _ hbc, hother _ hbc]
      exact h.uniform b (hbusy b hbc hb) d hd d' hd'

theorem LinkedInv.supers_array (h : LinkedInv W busy s) {r : ClassRef} (hr : r.dims ≠ 0)
    (hp : p ∈ W.supers r) : s.vm.state p ≠ .loaded ∧ s.setUp p = true := by
  simp only [Hierarchy.supers, hr, if_false, mem_cons, not_mem_nil, or_false] at hp
  rcases hp with rfl | rfl | rfl
  iterate 3 exact h.boot _ (by simp)

theorem displayOf_ne_nil (s : TypeVm) (r : ClassRef) :
    TypeVm.displayOf W.toClassWorld s r ≠ [] := by
  simp [TypeVm.displayOf]

theorem setupSuperHierarchy_display (s : TypeVm) (r q : ClassRef)
    (hq : q = r ∨ s.hierarchy q ≠ []) :
    (s.setupSuperHierarchy W.toClassWorld r).hierarchy q ≠ [] := by
  by_cases hqr : q = r
  · simpa [TypeVm.setupSuperHierarchy, hqr] using displayOf_ne_nil (W := W) s r
  · simpa [TypeVm.setupSuperHierarchy, hqr] using hq.resolve_left hqr

theorem LinkStep.setupSuperHierarchy (h : LinkedInv W busy s) (r : ClassRef) (n : ℕ) :
    LinkStep W busy n s (s.setupSuperHierarchy W.toClassWorld r) where
  inv :=
    { h with
      tables := fun q hq =>
        ⟨setupSuperHierarchy_display s r q (.inr (h.tables q hq).1), (h.tables q hq).2⟩ }
  setUp _ hq := hq
  display q hq := setupSuperHierarchy_display s r q (.inr hq)
  arrayDims := rfl
  settled _ _ := rfl
  above _ _ := rfl
  beyond _ _ := rfl

theorem LinkedInv.isPrimitive (h : LinkedInv W busy s) {c : ℕ}
    (hc : s.vm.state ⟨c, 0⟩ = .loaded) : W.isPrimitive c = false := by
  by_contra hp
  have hrank := h.primitive c (by simpa using hp)
  simp [hc, ClassState.rank] at hrank

theorem LinkStep.recordLinkageError {c t : ℕ} (h : LinkedInv W busy s)
    (hc : s.vm.state ⟨c, 0⟩ = .loaded) {f : Vm → Vm} (hf : ∀ v, (f v).state = v.state)
    (hdims : ∀ v, (f v).arrayDims = v.arrayDims) :
    LinkStep W busy (c + 1) s (s.mapVm fun v => (f v).recordLinkageError t ⟨c, 0⟩) := by
  have hstate : ∀ r, r ≠ (⟨c, 0⟩ : ClassRef) →
      (s.mapVm fun v => (f v).recordLinkageError t ⟨c, 0⟩).vm.state r = s.vm.state r := by
    intro r hr
    simp [TypeVm.mapVm, Vm.recordLinkageError, hr, hf]
  have hself : (s.mapVm fun v => (f v).recordLinkageError t ⟨c, 0⟩).vm.state ⟨c, 0⟩ =
      .linkageError := by
    simp [TypeVm.mapVm, Vm.recordLinkageError]
  have hother : ∀ r : ClassRef, r.base ≠ c →
      (s.mapVm fun v => (f v).recordLinkageError t ⟨c, 0⟩).vm.state r = s.vm.state r := by
    intro r hr
    apply hstate
    rintro rfl
    exact hr rfl
  have hsucc : ∀ d, (s.mapVm fun v => (f v).recordLinkageError t ⟨c, 0⟩).vm.state ⟨c, d + 1⟩ =
      s.vm.state ⟨c, d + 1⟩ := fun d => hstate _ (by simp)
  refine ⟨h.family (fun _ _ hb => hb) (hdims _) hother (fun _ hr => hr) (by simp [hself])
    (by simp [h.isPrimitive hc]) h.tables ?_ ?_ ?_, fun _ hr => hr, fun _ hr => hr, hdims _,
    ?_, ?_, ?_⟩
  · intro hb d hk hrank
    cases d with
    | zero => simp [hself, ClassState.rank] at hrank
    | succ d =>
      rw [hsucc] at hrank
      exact h.linked ⟨c, d + 1⟩ hb hk hrank
  · intro _ hrank
    simp [hself, ClassState.rank] at hrank
  · intro hb d hd d' hd'
    rw [hsucc, hsucc]
    exact h.uniform c hb d hd d' hd'
  · intro b hb
    apply hstate
    intro heq
    obtain rfl : b = c := congrArg ClassRef.base heq
    exact hb hc
  · intro r hr
    exact hother r (by omega)
  · intro r hr
    apply hstate
    rintro rfl
    simp at hr

/-- What `link_class` has done to a class and its array classes before it looks at the methods. -/
structure MarkedArrays (c : ℕ) (s s' : TypeVm) : Prop where
  base : s'.vm.state ⟨c, 0⟩ = .linked
  other : ∀ r : ClassRef, r.base ≠ c → s'.vm.state r = s.vm.state r
  arrayDims : s'.vm.arrayDims = s.vm.arrayDims
  setUp : ∀ r, s'.setUp r = true ↔ s.setUp r = true ∨ r = ⟨c, 1⟩ ∧ s'.setUp ⟨c, 1⟩ = true
  display : ∀ r, s.hierarchy r ≠ [] → s'.hierarchy r ≠ []
  displayOne : s'.setUp ⟨c, 1⟩ = true → s.setUp ⟨c, 1⟩ = true ∨ s'.hierarchy ⟨c, 1⟩ ≠ []
  marked : (s.vm.state ⟨c, 1⟩).rank < ClassState.linked.rank → ∀ d < s.vm.arrayDims c,
    s'.vm.state ⟨c, d + 1⟩ = .linked
  beyond : ∀ d, s.vm.arrayDims c ≤ d → s'.vm.state ⟨c, d + 1⟩ = s.vm.state ⟨c, d + 1⟩
  one : 0 < s.vm.arrayDims c →
    ClassState.linked.rank ≤ (s.vm.state ⟨c, 1⟩).rank ∨ s'.setUp ⟨c, 1⟩ = true

variable {link : TypeVm → ClassRef → ℤ × TypeVm} {c t : ℕ}

theorem markedArrays (hprim : W.isPrimitive c = false)
    (hdone : ∀ s p, s.vm.state p ≠ .loaded → link s p = (0, s)) (s : TypeVm) :
    MarkedArrays c s
      (if (s.mapVm fun v => v.setState ⟨c, 0⟩ .linked).vm.arrayDims c = 0 then
        s.mapVm fun v => v.setState ⟨c, 0⟩ .linked
      else (linkArrayType W.toClassWorld link (s.mapVm fun v => v.setState ⟨c, 0⟩ .linked)
        ⟨c, 1⟩).2) := by
  have hkeep : ∀ hdims : s.vm.arrayDims c = 0 ∨
      ClassState.linked.rank ≤ (s.vm.state ⟨c, 1⟩).rank,
      MarkedArrays c s (s.mapVm fun v => v.setState ⟨c, 0⟩ .linked) := by
    intro hdims
    refine ⟨by simp [TypeVm.mapVm, Vm.setState], ?_, rfl, ?_, fun _ h => h, .inl, ?_, ?_, ?_⟩
    · intro r hr
      have hne : r ≠ ⟨c, 0⟩ := by
        rintro rfl
        exact hr rfl
      simp [TypeVm.mapVm, Vm.setState, hne]
    · intro r
      constructor
      · exact .inl
      · rintro (hr | ⟨rfl, hr⟩)
        · exact hr
        · exact hr
    · intro hlt d hd
      rcases hdims with h0 | hrank
      · omega
      · omega
    · intro d _
      simp [TypeVm.mapVm, Vm.setState]
    · intro hpos
      exact .inl (hdims.resolve_left (by omega))
  have hone : (s.mapVm fun v => v.setState ⟨c, 0⟩ .linked).vm.state ⟨c, 1⟩ =
      s.vm.state ⟨c, 1⟩ := by
    simp [TypeVm.mapVm, Vm.setState]
  split
  · rename_i h0
    exact hkeep (.inl h0)
  · rename_i hdims
    have hpos : 0 < s.vm.arrayDims c := Nat.pos_of_ne_zero hdims
    unfold linkArrayType
    rw [hone]
    split
    · rename_i hrank
      exact hkeep (.inr hrank)
    · have hb : W.baseComponent ⟨c, 1⟩ = some ⟨c, 0⟩ := by
        simp [Hierarchy.baseComponent, hprim]
      rw [hb]
      dsimp only
      rw [hdone _ ⟨c, 0⟩ (by simp [TypeVm.mapVm, Vm.setState])]
      simp only [ne_eq, not_true_eq_false, if_false]
      have hstate : ∀ r : ClassRef, r.base ≠ c → r ≠ ⟨c, 0⟩ ∧ r ≠ ⟨c, 1⟩ := by
        intro r hr
        constructor
        · rintro rfl
          exact hr rfl
        · rintro rfl
          exact hr rfl
      constructor
      · simp [TypeVm.setUpFunctionTables, TypeVm.setupSuperHierarchy, TypeVm.mapVm, Vm.setState,
          Vm.setArrayStates]
      · intro r hr
        simp [TypeVm.setUpFunctionTables, TypeVm.setupSuperHierarchy, TypeVm.mapVm, Vm.setState,
          Vm.setArrayStates, hr, hstate r hr]
      · rfl
      · intro r
        by_cases hr : r = ⟨c, 1⟩ <;>
          simp [TypeVm.setUpFunctionTables, TypeVm.setupSuperHierarchy, TypeVm.mapVm, hr]
      · intro r hr
        exact setupSuperHierarchy_display (W := W) _ ⟨c, 1⟩ r (.inr hr)
      · intro _
        right
        exact setupSuperHierarchy_display (W := W) _ ⟨c, 1⟩ ⟨c, 1⟩ (.inl rfl)
      · intro _ d hd
        simp [TypeVm.setUpFunctionTables, TypeVm.setupSuperHierarchy, TypeVm.mapVm, Vm.setState,
          Vm.setArrayStates, Nat.succ_le_of_lt hd]
      · intro d hd
        have h1 : d ≠ 0 := by omega
        have h2 : ¬ d + 1 ≤ s.vm.arrayDims c := by omega
        simp [TypeVm.setUpFunctionTables, TypeVm.setupSuperHierarchy, TypeVm.mapVm, Vm.setState,
          Vm.setArrayStates, h1, h2]
      · intro _
        right
        simp [TypeVm.setUpFunctionTables]

section Tail

variable (h : LinkedInv W busy s) (hc : s.vm.state ⟨c, 0⟩ = .loaded)
  (hsupers : ∀ p ∈ W.supers ⟨c, 0⟩, s.setUp p = true) (hdisplay : s.hierarchy ⟨c, 0⟩ ≠ [])
  (hx : x.dims ≠ 0 → busy = some x.base)
  (hready : W.linkReady s x ⟨c, 0⟩ = true) (hm : MarkedArrays c s s')

include h hm in
theorem MarkedArrays.tables {r : ClassRef} (hr : s'.setUp r = true) :
    s'.hierarchy r ≠ [] ∧ (∀ p ∈ W.supers r, s'.setUp p = true) ∧
      (r.dims = 0 → W.plainFields r.base = true) := by
  have hmono : ∀ q, s.setUp q = true → s'.setUp q = true := fun q hq => (hm.setUp q).mpr (.inl hq)
  have hold : s.setUp r = true → s'.hierarchy r ≠ [] ∧ (∀ p ∈ W.supers r, s'.setUp p = true) ∧
      (r.dims = 0 → W.plainFields r.base = true) := by
    intro hr
    obtain ⟨hd, hs, hf⟩ := h.tables r hr
    exact ⟨hm.display r hd, fun p hp => hmono p (hs p hp), hf⟩
  rcases (hm.setUp r).mp hr with hr | ⟨rfl, hone⟩
  · exact hold hr
  · rcases hm.displayOne hone with hset | hd
    · exact hold hset
    · refine ⟨hd, fun p hp => hmono p (h.supers_array (by simp) hp).2, ?_⟩
      intro h0
      simp at h0

include h hc hx hready hm in
theorem MarkedArrays.arrays (hb : busy ≠ some c) {d : ℕ}
    (hrank : ClassState.linked.rank ≤ (s'.vm.state ⟨c, d + 1⟩).rank) :
    s'.setUp ⟨c, d + 1⟩ = true := by
  by_cases hd : d < s.vm.arrayDims c
  · have hone := h.unlinked ⟨c, 1⟩ hb hc
    rcases (LayoutWorld.linkReady_iff.mp hready).2.1 d hd with hset | hdx | ⟨rfl, -⟩
    · exact (hm.setUp _).mpr (.inl hset)
    · have hbase := hx (by rw [← hdx]; simp)
      rw [← hdx] at hbase
      exact absurd hbase hb
    · exact (hm.one (by omega)).resolve_left (by omega)
  · rw [hm.beyond d (by omega)] at hrank
    have hlt := h.unlinked ⟨c, d + 1⟩ hb hc
    omega

include h hc in
theorem MarkedArrays.uniform (hm : MarkedArrays c s s') (hb : busy ≠ some c) :
    ∀ d < s.vm.arrayDims c, s'.vm.state ⟨c, d + 1⟩ = .linked :=
  hm.marked (h.unlinked ⟨c, 1⟩ hb hc)

include hm in
theorem MarkedArrays.above (r : ClassRef) (hr : c + 1 ≤ r.base) :
    s'.vm.state r = s.vm.state r := hm.other r (by omega)

include hm in
theorem MarkedArrays.outside (r : ClassRef) (hr : s.vm.arrayDims r.base < r.dims) :
    s'.vm.state r = s.vm.state r := by
  by_cases hrc : r.base = c
  · obtain ⟨b, d⟩ := r
    obtain rfl : b = c := hrc
    obtain ⟨d, rfl⟩ : ∃ e, d = e + 1 := ⟨d - 1, by dsimp only at hr; omega⟩
    exact hm.beyond d (Nat.lt_succ_iff.mp hr)
  · exact hm.other r hrc

include h hc hsupers hdisplay hx hready hm in
/-- Linking that ends with the function tables of the class. -/
theorem MarkedArrays.complete :
    LinkStep W busy (c + 1) s (s'.setUpFunctionTables W.toClassWorld ⟨c, 0⟩) := by
  have hset : ∀ r, (s'.setUpFunctionTables W.toClassWorld ⟨c, 0⟩).setUp r = true ↔
      s'.setUp r = true ∨ r = ⟨c, 0⟩ := by
    intro r
    by_cases hr : r = ⟨c, 0⟩ <;> simp [TypeVm.setUpFunctionTables, hr]
  have hmono : ∀ r, s.setUp r = true →
      (s'.setUpFunctionTables W.toClassWorld ⟨c, 0⟩).setUp r = true := fun r hr =>
    (hset r).mpr (.inl ((hm.setUp r).mpr (.inl hr)))
  refine ⟨h.family (fun _ _ hb => hb) hm.arrayDims hm.other hmono ?_ ?_ ?_ ?_ ?_ ?_, hmono,
    hm.display, hm.arrayDims, ?_, hm.above, hm.outside⟩
  · show s'.vm.state ⟨c, 0⟩ ≠ .loaded
    simp [hm.base]
  · simp [h.isPrimitive hc]
  · intro r hr
    rcases (hset r).mp hr with hr | rfl
    · obtain ⟨hd, hs, hf⟩ := hm.tables h hr
      exact ⟨hd, fun p hp => (hset p).mpr (.inl (hs p hp)), hf⟩
    · exact ⟨hm.display _ hdisplay, fun p hp => hmono p (hsupers p hp),
        (LayoutWorld.linkReady_iff.mp hready).2.2⟩
  · intro hb d _ hrank
    cases d with
    | zero => exact (hset _).mpr (.inr rfl)
    | succ d => exact (hset _).mpr (.inl (hm.arrays h hc hx hready hb hrank))
  · intro hb _ d hd
    show ClassState.linked.rank ≤ (s'.vm.state ⟨c, d⟩).rank
    cases d with
    | zero => rw [hm.base]
    | succ d => rw [hm.uniform h hc hb d hd]
  · intro hb d hd d' hd'
    show s'.vm.state ⟨c, d + 1⟩ = s'.vm.state ⟨c, d' + 1⟩
    rw [hm.uniform h hc hb d hd, hm.uniform h hc hb d' hd']
  · intro b hb
    have hbc : b ≠ c := by
      rintro rfl
      exact hb hc
    exact hm.other ⟨b, 0⟩ hbc

include h hc hx hready hm in
/-- Linking that ends with the rejection of a method. -/
theorem MarkedArrays.reject : LinkStep W busy (c + 1) s
    (s'.mapVm fun v => (v.raise t .verifyError).recordLinkageError t ⟨c, 0⟩) := by
  have hself : (s'.mapVm fun v => (v.raise t .verifyError).recordLinkageError t ⟨c, 0⟩).vm.state
      ⟨c, 0⟩ = .linkageError := by
    simp [TypeVm.mapVm, Vm.recordLinkageError]
  have hstate : ∀ r, r ≠ (⟨c, 0⟩ : ClassRef) → (s'.mapVm fun v =>
      (v.raise t .verifyError).recordLinkageError t ⟨c, 0⟩).vm.state r = s'.vm.state r := by
    intro r hr
    simp [TypeVm.mapVm, Vm.recordLinkageError, Vm.raise, hr]
  have hother : ∀ r : ClassRef, r.base ≠ c → (s'.mapVm fun v =>
      (v.raise t .verifyError).recordLinkageError t ⟨c, 0⟩).vm.state r = s.vm.state r := by
    intro r hr
    rw [hstate r (by rintro rfl; exact hr rfl), hm.other r hr]
  have hmono : ∀ r, s.setUp r = true → s'.setUp r = true := fun r hr => (hm.setUp r).mpr (.inl hr)
  refine ⟨h.family (fun _ _ hb => hb) hm.arrayDims hother hmono ?_ ?_ (fun _ hr => hm.tables h hr)
    ?_ ?_ ?_, hmono, hm.display, hm.arrayDims, ?_, fun r hr => hother r (by omega), ?_⟩
  · simp [hself]
  · simp [h.isPrimitive hc]
  · intro hb d _ hrank
    cases d with
    | zero => simp [hself, ClassState.rank] at hrank
    | succ d =>
      rw [hstate _ (by simp)] at hrank
      exact hm.arrays h hc hx hready hb hrank
  · intro _ hrank
    simp [hself, ClassState.rank] at hrank
  · intro hb d hd d' hd'
    rw [hstate _ (by simp), hstate _ (by simp), hm.uniform h hc hb d hd, hm.uniform h hc hb d' hd']
  · intro b hb
    apply hother
    rintro rfl
    exact hb hc
  · intro r hr
    rw [hstate r (by rintro rfl; simp at hr), hm.outside r hr]

end Tail

def Links (W : LayoutWorld) (busy : Option ℕ) (x : ClassRef) (depth : ℕ)
    (link : TypeVm → ClassRef → ℤ × TypeVm) (p : ClassRef) : Prop :=
  ∀ s, LinkedInv W busy s → LinkReady W s x depth p → LinkResult W busy s p.base (link s p)

theorem linkTypes_result {ps : List ClassRef}
    (hps : ∀ p ∈ ps, p.dims = 0 ∧ p.base < n) (hl : ∀ p ∈ ps, Links W busy x depth link p)
    (h : LinkedInv W busy s) (hready : ∀ p ∈ ps, LinkReady W s x depth p) :
    LinkStep W busy n s (linkTypes link s ps).2 ∧ ((linkTypes link s ps).1 = 0 →
      TablesCompleted s (linkTypes link s ps).2 ∧
        ∀ p ∈ ps, (linkTypes link s ps).2.vm.state p ≠ .loaded) := by
  induction ps generalizing s with
  | nil => exact ⟨.refl h n, fun _ => ⟨fun _ hc => .inl hc, by simp⟩⟩
  | cons p ps ih =>
    obtain ⟨hp0, hpn⟩ := hps p mem_cons_self
    have hp := hl p mem_cons_self s h (hready p mem_cons_self)
    have hstep := hp.step.mono (Nat.succ_le_of_lt hpn)
    simp only [linkTypes]
    split
    · rename_i hne
      exact ⟨hstep, fun h0 => absurd h0 hne⟩
    · rename_i h0
      have hdone := hp.completed (not_not.mp h0)
      obtain ⟨hstep', hrest⟩ := ih (fun q hq => hps q (mem_cons_of_mem _ hq))
        (fun q hq => hl q (mem_cons_of_mem _ hq)) hstep.inv
        (fun q hq => (hready q (mem_cons_of_mem _ hq)).step
          (hps q (mem_cons_of_mem _ hq)).1 hstep hdone)
      refine ⟨hstep.trans hstep', fun hz => ?_⟩
      obtain ⟨hc, hpast⟩ := hrest hz
      refine ⟨hdone.trans hstep' hc, fun q hq => ?_⟩
      rcases mem_cons.mp hq with rfl | hq
      · obtain ⟨b, d⟩ := q
        obtain rfl : d = 0 := hp0
        rw [hstep'.settled b hp.past]
        exact hp.past
      · exact hpast q hq

theorem LinkResult.rejected {r : ℤ} (hr : r ≠ 0) (hs : LinkStep W busy (c + 1) s s')
    (hc : s'.vm.state ⟨c, 0⟩ = .linkageError) : LinkResult W busy s c (r, s') where
  step := hs
  past := by
    show s'.vm.state ⟨c, 0⟩ ≠ .loaded
    rw [hc]
    decide
  completed h0 := absurd h0 hr
  failed _ := hc
  arrayClass h0 := absurd h0 hr

theorem LinkStep.rejected (hs : LinkStep W busy c s s')
    (hc : s.vm.state ⟨c, 0⟩ = .loaded) {r : ℤ} (hr : r ≠ 0) :
    LinkResult W busy s c (r, s'.mapVm fun v => v.recordLinkageError t ⟨c, 0⟩) := by
  have hc' : s'.vm.state ⟨c, 0⟩ = .loaded := (hs.above ⟨c, 0⟩ le_rfl).trans hc
  apply LinkResult.rejected hr
  · exact (hs.mono (Nat.le_succ c)).trans
      (.recordLinkageError (f := id) hs.inv hc' (fun _ => rfl) fun _ => rfl)
  · simp [TypeVm.mapVm, Vm.recordLinkageError]

/-- The end of `link_class`, after the supertypes have been linked and the array classes have been
marked: the methods are analyzed and the tables are set up. -/
theorem MarkedArrays.result {s₁ s₂ : TypeVm} (hx : x.dims ≠ 0 → busy = some x.base)
    (hm : MarkedArrays c s₁ s₂) (hs : LinkStep W busy c s s₁) (hcomp : TablesCompleted s s₁)
    (hc : s.vm.state ⟨c, 0⟩ = .loaded) (hsupers : ∀ p ∈ W.supers ⟨c, 0⟩, s₁.setUp p = true)
    (hdisplay : s₁.hierarchy ⟨c, 0⟩ ≠ []) (hready : W.linkReady s₁ x ⟨c, 0⟩ = true) :
    LinkResult W busy s c
      (if W.verifies c then (0, s₂.setUpFunctionTables W.toClassWorld ⟨c, 0⟩)
      else (-1, s₂.mapVm fun v => (v.raise t .verifyError).recordLinkageError t ⟨c, 0⟩)) := by
  have hc₁ : s₁.vm.state ⟨c, 0⟩ = .loaded := (hs.above ⟨c, 0⟩ le_rfl).trans hc
  have hstep := hs.mono (Nat.le_succ c)
  split
  · have hdone := hm.complete hs.inv hc₁ hsupers hdisplay hx hready
    refine ⟨hstep.trans hdone, ?_, fun _ b hb => ?_, fun hne => absurd rfl hne,
      fun _ _ hpos => ?_⟩
    · show s₂.vm.state ⟨c, 0⟩ ≠ .loaded
      simp [hm.base]
    · by_cases hbc : b = c
      · subst hbc
        right
        simp [TypeVm.setUpFunctionTables]
      · rcases hcomp b hb with hl | hset
        · left
          show s₂.vm.state ⟨b, 0⟩ = .loaded
          rw [hm.other ⟨b, 0⟩ hbc, hl]
        · exact .inr (hdone.setUp _ hset)
    · rw [← hs.arrayDims] at hpos
      rw [← hs.above ⟨c, 1⟩ le_rfl]
      refine (hm.one hpos).imp id fun hset => ?_
      simpa [TypeVm.setUpFunctionTables] using hset
  · apply LinkResult.rejected (by decide)
    · exact hstep.trans (hm.reject hs.inv hc₁ hx hready)
    · simp [TypeVm.mapVm, Vm.recordLinkageError]

/-- Linking of a class that is loaded. -/
theorem linkLoadedType_result (hx : x.dims ≠ 0 → busy = some x.base)
    (hl : ∀ p ∈ W.supers ⟨c, 0⟩, Links W busy x depth link p)
    (hdone : ∀ s p, s.vm.state p ≠ .loaded → link s p = (0, s))
    (hc : s.vm.state ⟨c, 0⟩ = .loaded) (h : LinkedInv W busy s)
    (hready : LinkReady W s x (depth + 1) ⟨c, 0⟩) :
    LinkResult W busy s c (linkLoadedType W.toClassWorld t link s ⟨c, 0⟩) := by
  have hlt : ∀ p ∈ W.supers ⟨c, 0⟩, p.dims = 0 ∧ p.base < c := fun p hp =>
    ⟨W.supers_dims hp, W.supers_base_lt hp rfl⟩
  have hsub : ∀ p ∈ (W.superOf ⟨c, 0⟩).toList, p ∈ W.supers ⟨c, 0⟩ := by
    intro p hp
    exact ClassWorld.superOf_mem_supers (Option.mem_toList.mp hp)
  have hint : ∀ p ∈ W.interfacesOf ⟨c, 0⟩, p ∈ W.supers ⟨c, 0⟩ := fun p hp =>
    ClassWorld.mem_supers.mpr (ClassWorld.mem_itableSources.mpr (.inl hp))
  have hprim := h.isPrimitive hc
  have hkind : W.kind ⟨c, 0⟩ = .ordinary := by simp [Hierarchy.kind, hprim]
  have hnested : ∀ p ∈ W.supers ⟨c, 0⟩, LinkReady W s x depth p := by
    intro p hp q hq
    apply hready
    simp only [LayoutWorld.linkedBy, hc, ne_eq, not_true_eq_false, if_false]
    exact mem_cons_of_mem _ (mem_flatMap.mpr ⟨p, mem_append_left _ hp, hq⟩)
  unfold linkLoadedType
  dsimp only
  obtain ⟨hs1, hr1⟩ := linkTypes_result (fun p hp => hlt p (hsub p hp))
    (fun p hp => hl p (hsub p hp)) h (fun p hp => hnested p (hsub p hp))
  generalize linkTypes link s (W.superOf ⟨c, 0⟩).toList = l1 at hs1 hr1 ⊢
  split
  · rename_i hne
    exact hs1.rejected hc hne
  rename_i h0
  obtain ⟨hcomp1, hpast1⟩ := hr1 (not_not.mp h0)
  have hs2 := hs1.trans (.setupSuperHierarchy hs1.inv ⟨c, 0⟩ c)
  have hcomp2 : TablesCompleted s (l1.2.setupSuperHierarchy W.toClassWorld ⟨c, 0⟩) := hcomp1
  obtain ⟨hs3, hr3⟩ := linkTypes_result (fun p hp => hlt p (hint p hp))
    (fun p hp => hl p (hint p hp)) hs2.inv
    (fun p hp => (hnested p (hint p hp)).step (hlt p (hint p hp)).1 hs2 hcomp2)
  have hdisplay := hs3.display ⟨c, 0⟩
    (setupSuperHierarchy_display (W := W) l1.2 ⟨c, 0⟩ ⟨c, 0⟩ (.inl rfl))
  have hpast3 : ∀ p ∈ (W.superOf ⟨c, 0⟩).toList,
      (linkTypes link (l1.2.setupSuperHierarchy W.toClassWorld ⟨c, 0⟩)
        (W.interfacesOf ⟨c, 0⟩)).2.vm.state p ≠ .loaded := fun p hp hl3 =>
    hpast1 p hp (hs3.loaded (hlt p (hsub p hp)).1 hl3)
  generalize linkTypes link (l1.2.setupSuperHierarchy W.toClassWorld ⟨c, 0⟩)
    (W.interfacesOf ⟨c, 0⟩) = l3 at hs3 hr3 hdisplay hpast3 ⊢
  have hs := hs2.trans hs3
  split
  · rename_i hne
    exact hs.rejected hc hne
  rename_i h3
  rw [if_neg (not_not.mpr hkind)]
  obtain ⟨hcomp3, hpast3'⟩ := hr3 (not_not.mp h3)
  have hcomp := hcomp2.trans hs3 hcomp3
  have hc3 : l3.2.vm.state ⟨c, 0⟩ = .loaded := (hs.above ⟨c, 0⟩ le_rfl).trans hc
  have hready3 : W.linkReady l3.2 x ⟨c, 0⟩ = true := by
    refine hready.step rfl hs hcomp ⟨c, 0⟩ ?_
    simp [LayoutWorld.linkedBy, hc3]
  have hsupers : ∀ p ∈ W.supers ⟨c, 0⟩, l3.2.setUp p = true := by
    intro p hp
    refine ((LayoutWorld.linkReady_iff.mp hready3).1 p hp).resolve_left ?_
    rcases ClassWorld.mem_itableSources.mp (ClassWorld.mem_supers.mp hp) with hi | hi
    · exact hpast3' p hi
    · exact hpast3 p (Option.mem_toList.mpr hi)
  exact (markedArrays hprim hdone l3.2).result hx hs hcomp hc hsupers hdisplay hready3

theorem linkTypeAux_links (hx : x.dims ≠ 0 → busy = some x.base) (hd : c < depth) :
    Links W busy x depth (linkTypeAux W.toClassWorld t depth) ⟨c, 0⟩ := by
  induction depth generalizing c with
  | zero => omega
  | succ depth ih =>
    intro s h hready
    unfold linkTypeAux
    split
    · rename_i hne
      refine ⟨.refl h _, hne, fun _ _ hc => .inl hc, fun h0 => absurd rfl h0, fun _ hc => ?_⟩
      exact absurd hc hne
    · rename_i hl
      refine linkLoadedType_result hx (fun p hp => ?_) (fun _ _ => linkTypeAux_of_ne_loaded)
        (not_not.mp hl) h hready
      have hlt := W.supers_base_lt hp rfl
      have hp0 := W.supers_dims hp
      obtain ⟨b, k⟩ := p
      obtain rfl : k = 0 := hp0
      exact ih (by dsimp only at hlt; omega)

variable {r : ClassRef}

/-- The descriptor of an array class is marked before its base class is linked. -/
theorem LinkedInv.markArray (h : LinkedInv W none s) (hr : r.dims ≠ 0) :
    LinkedInv W (some r.base) (s.mapVm fun v => v.setState r .linked) := by
  have hstate : ∀ q : ClassRef, q.dims = 0 ∨ some r.base ≠ some q.base →
      (s.mapVm fun v => v.setState r .linked).vm.state q = s.vm.state q := by
    intro q hq
    have hne : q ≠ r := by
      rintro rfl
      exact hq.elim hr fun hb => hb rfl
    simp [TypeVm.mapVm, Vm.setState, hne]
  constructor
  · intro p hp
    rw [hstate _ (.inl rfl)]
    exact h.boot p hp
  · intro c hc
    rw [hstate _ (.inl rfl)]
    exact h.primitive c hc
  · exact h.tables
  · intro q hq hk hrank
    rw [hstate q (.inr hq)] at hrank
    exact h.linked q (by simp) hk hrank
  · intro q hq hl
    rw [hstate ⟨q.base, 0⟩ (.inl rfl)] at hl
    rw [hstate q (.inr hq)]
    exact h.unlinked q (by simp) hl
  · intro c hc hrank d hd
    rw [hstate ⟨c, 0⟩ (.inl rfl)] at hrank
    rw [hstate ⟨c, d⟩ (.inr hc)]
    exact h.arrays c (by simp) hrank d hd
  · intro c hc d hd d' hd'
    rw [hstate _ (.inr hc), hstate _ (.inr hc)]
    exact h.uniform c (by simp) d hd d' hd'

/-- `setup_super_hierarchy` and `set_up_function_tables` of an array class. -/
def TypeVm.setUpArray (W : LayoutWorld) (s : TypeVm) (r : ClassRef) : TypeVm :=
  (s.setupSuperHierarchy W.toClassWorld r).setUpFunctionTables W.toClassWorld r

theorem TypeVm.setUpArray_setUp (s : TypeVm) (r q : ClassRef) :
    (TypeVm.setUpArray W s r).setUp q = true ↔ s.setUp q = true ∨ q = r := by
  by_cases hq : q = r <;>
    simp [TypeVm.setUpArray, TypeVm.setUpFunctionTables, TypeVm.setupSuperHierarchy, hq]

/-- The new tables of an array class, over states of its family that keep to the invariant. -/
theorem LinkedInv.setUpArray (h : LinkedInv W busy s) (hr : r.dims ≠ 0)
    (hb : ∀ b, b ≠ r.base → busy ≠ some b) {f : Vm → Vm}
    (hdims : (f s.vm).arrayDims = s.vm.arrayDims)
    (hother : ∀ q : ClassRef, q.base ≠ r.base → (f s.vm).state q = s.vm.state q)
    (hbase : (f s.vm).state ⟨r.base, 0⟩ = s.vm.state ⟨r.base, 0⟩)
    (hpast : s.vm.state ⟨r.base, 0⟩ ≠ .loaded)
    (hlinked : ∀ d, W.kind ⟨r.base, d⟩ ≠ .primitive →
      ClassState.linked.rank ≤ ((f s.vm).state ⟨r.base, d⟩).rank →
      s.setUp ⟨r.base, d⟩ = true ∨ (⟨r.base, d⟩ : ClassRef) = r)
    (harrays : ClassState.linked.rank ≤ (s.vm.state ⟨r.base, 0⟩).rank →
      ∀ d < s.vm.arrayDims r.base, ClassState.linked.rank ≤ ((f s.vm).state ⟨r.base, d + 1⟩).rank)
    (huniform : ∀ d < s.vm.arrayDims r.base, ∀ d' < s.vm.arrayDims r.base,
      (f s.vm).state ⟨r.base, d + 1⟩ = (f s.vm).state ⟨r.base, d' + 1⟩) :
    LinkedInv W none (TypeVm.setUpArray W (s.mapVm f) r) := by
  have hset : ∀ q, s.setUp q = true → (TypeVm.setUpArray W (s.mapVm f) r).setUp q = true :=
    fun q hq => (TypeVm.setUpArray_setUp _ r q).mpr (.inl hq)
  refine h.family (c := r.base) (fun b hbr _ => hb b hbr) hdims hother hset ?_ ?_ ?_ ?_ ?_ ?_
  · show (f s.vm).state ⟨r.base, 0⟩ ≠ .loaded
    rwa [hbase]
  · intro hp
    show ClassState.linked.rank ≤ ((f s.vm).state ⟨r.base, 0⟩).rank
    rw [hbase]
    exact h.primitive _ hp
  · intro q hq
    have hd : ∀ q, q = r ∨ s.hierarchy q ≠ [] →
        (TypeVm.setUpArray W (s.mapVm f) r).hierarchy q ≠ [] := fun q hq =>
      setupSuperHierarchy_display (W := W) (s.mapVm f) r q hq
    rcases (TypeVm.setUpArray_setUp _ r q).mp hq with hq | rfl
    · obtain ⟨hne, hs, hf⟩ := h.tables q hq
      exact ⟨hd q (.inr hne), fun p hp => hset p (hs p hp), hf⟩
    · exact ⟨hd q (.inl rfl), fun p hp => hset p (h.supers_array hr hp).2, fun h0 => absurd h0 hr⟩
  · intro _ d hk hrank
    exact (TypeVm.setUpArray_setUp _ r _).mpr (hlinked d hk hrank)
  · intro _ hrank d hd
    cases d with
    | zero => exact hrank
    | succ d =>
      refine harrays ?_ d hd
      rw [← hbase]
      exact hrank
  · exact fun _ => huniform

/-- Linking of an array class finds its supertypes linked. -/
theorem linkLoadedType_eq_array (h : LinkedInv W none s) (hr : r.dims ≠ 0)
    (hdone : ∀ s p, s.vm.state p ≠ .loaded → link s p = (0, s)) :
    linkLoadedType W.toClassWorld t link s r =
      linkArrayType W.toClassWorld link (s.setupSuperHierarchy W.toClassWorld r) r := by
  have hk : W.kind r ≠ .ordinary := fun hk => hr (W.dims_of_kind_ordinary hk)
  have hsub : ∀ p ∈ (W.superOf r).toList, s.vm.state p ≠ .loaded := by
    intro p hp
    exact (h.supers_array hr (ClassWorld.superOf_mem_supers (Option.mem_toList.mp hp))).1
  have hint : ∀ p ∈ W.interfacesOf r,
      (s.setupSuperHierarchy W.toClassWorld r).vm.state p ≠ .loaded := fun p hp =>
    (h.supers_array hr (ClassWorld.mem_supers.mpr (ClassWorld.mem_itableSources.mpr (.inl hp)))).1
  unfold linkLoadedType
  dsimp only
  rw [linkTypes_of_ne_loaded hdone hsub, if_neg (by simp), linkTypes_of_ne_loaded hdone hint,
    if_neg (by simp), if_pos hk]

/-- Linking of an array class over a primitive type. -/
theorem linkArrayType_primitive (link : TypeVm → ClassRef → ℤ × TypeVm)
    (h : LinkedInv W none s) (hr : r.dims ≠ 0) (hl : s.vm.state r = .loaded)
    (hb : W.baseComponent r = none) :
    LinkedInv W none (linkArrayType W.toClassWorld link s r).2 ∧
      (linkArrayType W.toClassWorld link s r).2.setUp r = true ∧
      (linkArrayType W.toClassWorld link s r).2.vm.arrayDims = s.vm.arrayDims := by
  have hprim : W.isPrimitive r.base = true := by
    by_contra hp
    simp [Hierarchy.baseComponent, hr, hp] at hb
  have hrank : ¬ ClassState.linked.rank ≤ (s.vm.state r).rank := by
    rw [hl]
    decide
  have hbase := h.primitive r.base hprim
  have hnew : ∀ d < s.vm.arrayDims r.base, (⟨r.base, d + 1⟩ : ClassRef) ≠ r := by
    intro d hd hdr
    have := h.arrays r.base (by simp) hbase (d + 1) hd
    rw [hdr] at this
    exact hrank this
  have hstate : ∀ q, q ≠ r → (s.vm.setState r .linked).state q = s.vm.state q := by
    intro q hq
    simp [Vm.setState, hq]
  have hzero : (⟨r.base, 0⟩ : ClassRef) ≠ r := by
    intro h0
    exact hr (congrArg ClassRef.dims h0).symm
  have heq : linkArrayType W.toClassWorld link s r =
      (0, TypeVm.setUpArray W (s.mapVm fun v => v.setState r .linked) r) := by
    unfold linkArrayType
    rw [if_neg hrank, hb]
    rfl
  rw [heq]
  refine ⟨h.setUpArray hr (by simp) rfl ?_ (hstate _ hzero) ?_ ?_ ?_ ?_,
    (TypeVm.setUpArray_setUp _ r r).mpr (.inr rfl), rfl⟩
  · intro q hq
    apply hstate
    rintro rfl
    exact hq rfl
  · intro hld
    rw [hld] at hbase
    exact absurd hbase (by decide)
  · intro d hk hd
    by_cases hdr : (⟨r.base, d⟩ : ClassRef) = r
    · exact .inr hdr
    · rw [hstate _ hdr] at hd
      exact .inl (h.linked _ (by simp) hk hd)
  · intro _ d hd
    rw [hstate _ (hnew d hd)]
    exact h.arrays r.base (by simp) hbase (d + 1) hd
  · intro d hd d' hd'
    rw [hstate _ (hnew d hd), hstate _ (hnew d' hd')]
    exact h.uniform r.base (by simp) d hd d' hd'

/-- Linking of an array class over a class, which links the class first. -/
theorem linkArrayType_class (h : LinkedInv W none s)
    (hr : r.dims ≠ 0) (hl : s.vm.state r = .loaded) (hb : W.baseComponent r = some ⟨r.base, 0⟩)
    (hlink : Links W (some r.base) r depth link ⟨r.base, 0⟩)
    (hbase : LinkReady W s r depth ⟨r.base, 0⟩) (hself : W.linkReady s r r = true) :
    LinkedInv W none (linkArrayType W.toClassWorld link s r).2 ∧
      (linkArrayType W.toClassWorld link s r).2.setUp r = true ∧
      (linkArrayType W.toClassWorld link s r).2.vm.arrayDims = s.vm.arrayDims := by
  have hrank : ¬ ClassState.linked.rank ≤ (s.vm.state r).rank := by
    rw [hl]
    decide
  have hstate : ∀ q, q ≠ r → (s.mapVm fun v => v.setState r .linked).vm.state q =
      s.vm.state q := by
    intro q hq
    simp [TypeVm.mapVm, Vm.setState, hq]
  have hzero : ∀ c, (⟨c, 0⟩ : ClassRef) ≠ r := by
    rintro c rfl
    exact hr rfl
  have hready : LinkReady W (s.mapVm fun v => v.setState r .linked) r depth ⟨r.base, 0⟩ := by
    refine hbase.mono rfl (fun _ hq => hq) rfl ?_ ?_
    · rintro ⟨c, d⟩ h0 hq
      obtain rfl : d = 0 := h0
      rwa [hstate _ (hzero c)] at hq
    · intro c hc
      rw [hstate _ (hzero c)]
      exact .inl hc
  have hres := hlink _ (h.markArray hr) hready
  have heq : linkArrayType W.toClassWorld link s r =
      ((link (s.mapVm fun v => v.setState r .linked) ⟨r.base, 0⟩).1, TypeVm.setUpArray W
        ((link (s.mapVm fun v => v.setState r .linked) ⟨r.base, 0⟩).2.mapVm fun v =>
          let v' := v.setArrayStates r.base
            (if (link (s.mapVm fun v => v.setState r .linked) ⟨r.base, 0⟩).1 ≠ 0 then
              ClassState.linkageError else .linked)
          if (link (s.mapVm fun v => v.setState r .linked) ⟨r.base, 0⟩).1 ≠ 0 then
            { v' with failure := Function.update v'.failure r (some .link) } else v') r) := by
    unfold linkArrayType
    rw [if_neg hrank, hb]
    rfl
  rw [heq]
  generalize link (s.mapVm fun v => v.setState r .linked) ⟨r.base, 0⟩ = l at hres ⊢
  generalize hf : (fun v : Vm =>
    let v' := v.setArrayStates r.base (if l.1 ≠ 0 then ClassState.linkageError else .linked)
    if l.1 ≠ 0 then { v' with failure := Function.update v'.failure r (some .link) }
    else v') = f
  have hfdims : ∀ v, (f v).arrayDims = v.arrayDims := by
    intro v
    rw [← hf]
    dsimp only
    split <;> rfl
  have hfstate : ∀ v q, (f v).state q =
      if q.base = r.base ∧ 0 < q.dims ∧ q.dims ≤ v.arrayDims r.base then
        (if l.1 ≠ 0 then ClassState.linkageError else .linked) else v.state q := by
    intro v q
    rw [← hf]
    dsimp only
    split <;> rfl
  have hdims : l.2.vm.arrayDims = s.vm.arrayDims := hres.step.arrayDims
  have hin : ∀ d < s.vm.arrayDims r.base, (f l.2.vm).state ⟨r.base, d + 1⟩ =
      if l.1 ≠ 0 then ClassState.linkageError else .linked := by
    intro d hd
    rw [hfstate, if_pos ⟨rfl, Nat.succ_pos d, by rw [hdims]; exact hd⟩]
  have hbase0 : (f l.2.vm).state ⟨r.base, 0⟩ = l.2.vm.state ⟨r.base, 0⟩ := by
    rw [hfstate, if_neg (by simp)]
  have hmono : ∀ q, s.setUp q = true → l.2.setUp q = true := hres.step.setUp
  refine ⟨hres.step.inv.setUpArray hr (fun b hbr => ?_) (hfdims _) ?_ hbase0 hres.past ?_ ?_ ?_,
    (TypeVm.setUpArray_setUp _ r r).mpr (.inr rfl), (hfdims _).trans hdims⟩
  · rintro ⟨⟩
    exact hbr rfl
  · intro q hq
    rw [hfstate, if_neg fun h => hq h.1]
  · intro d hk hd
    cases d with
    | zero =>
      left
      rw [hbase0] at hd
      by_cases hld : s.vm.state ⟨r.base, 0⟩ = .loaded
      · by_cases h0 : l.1 = 0
        · exact (hres.completed h0 r.base (by rwa [hstate _ (hzero _)])).resolve_left hres.past
        · rw [hres.failed h0] at hd
          exact absurd hd (by decide)
      · rw [hres.step.settled r.base (by rwa [hstate _ (hzero _)]), hstate _ (hzero _)] at hd
        exact hmono _ (h.linked _ (by simp) hk hd)
    | succ d =>
      by_cases hdr : (⟨r.base, d + 1⟩ : ClassRef) = r
      · exact .inr hdr
      left
      by_cases hlt : d < s.vm.arrayDims r.base
      · rw [hin d hlt] at hd
        have h0 : l.1 = 0 := by
          by_contra hne
          rw [if_pos hne] at hd
          exact absurd hd (by decide)
        rcases (LayoutWorld.linkReady_iff.mp hself).2.1 d hlt with hset | hx | ⟨rfl, hld⟩
        · exact hmono _ hset
        · exact absurd hx hdr
        · refine (hres.arrayClass h0 (by rwa [hstate _ (hzero _)]) hlt).resolve_left ?_
          rw [hstate _ hdr]
          exact not_le.mpr (h.unlinked ⟨r.base, 1⟩ (by simp) hld)
      · have hout : s.vm.arrayDims r.base < d + 1 := by omega
        rw [hfstate, if_neg (fun h => by simp only [hdims] at h; omega),
          hres.step.beyond ⟨r.base, d + 1⟩ hout, hstate _ hdr] at hd
        exact hmono _ (h.linked _ (by simp) hk hd)
  · intro hrank d hd
    have h0 : l.1 = 0 := by
      by_contra hne
      rw [hres.failed hne] at hrank
      exact absurd hrank (by decide)
    rw [hin d (by rwa [hdims] at hd), if_neg (not_not.mpr h0)]
  · intro d hd d' hd'
    rw [hdims] at hd hd'
    rw [hin d hd, hin d' hd']

/-- `link_class` on any class keeps the invariant, and a loaded array class gets its tables. -/
theorem linkType_linkedInv (h : LinkedInv W none s) (hwhole : W.linksWhole s r = true) :
    LinkedInv W none (linkType W.toClassWorld t s r).2 ∧
      (r.dims ≠ 0 → s.vm.state r = .loaded →
        (linkType W.toClassWorld t s r).2.setUp r = true) ∧
      (linkType W.toClassWorld t s r).2.vm.arrayDims = s.vm.arrayDims := by
  have hready : LinkReady W s r (W.linkDepth r) r := all_eq_true.mp hwhole
  unfold linkType
  by_cases hr : r.dims = 0
  · obtain ⟨c, d⟩ := r
    obtain rfl : d = 0 := hr
    have hlinks : Links W none ⟨c, 0⟩ (W.linkDepth ⟨c, 0⟩)
        (linkTypeAux W.toClassWorld t (W.linkDepth ⟨c, 0⟩)) ⟨c, 0⟩ :=
      linkTypeAux_links (fun h0 => absurd rfl h0) (by simp [Hierarchy.linkDepth])
    have hres := hlinks s h hready
    exact ⟨hres.step.inv, fun h0 => absurd rfl h0, hres.step.arrayDims⟩
  · by_cases hl : s.vm.state r = .loaded
    · obtain ⟨depth, hdepth, hlt⟩ : ∃ depth, W.linkDepth r = depth + 1 ∧ r.base < depth := by
        refine ⟨W.linkDepth r - 1, ?_, ?_⟩ <;>
          simp only [Hierarchy.linkDepth, if_neg hr] <;> omega
      rw [hdepth] at hready ⊢
      have hd := LinkStep.setupSuperHierarchy h r 0
      have hnested : LinkReady W s r (depth + 1) r := hready
      have hmem : ∀ q, q = r ∨ q ∈ (W.supers r ++ (W.baseComponent r).toList).flatMap
          (W.linkedBy s depth) → W.linkReady s r q = true := by
        intro q hq
        apply hnested
        simp only [LayoutWorld.linkedBy, hl, ne_eq, not_true_eq_false, if_false]
        exact mem_cons.mpr hq
      have heq : linkTypeAux W.toClassWorld t (depth + 1) s r =
          linkArrayType W.toClassWorld (linkTypeAux W.toClassWorld t depth)
            (s.setupSuperHierarchy W.toClassWorld r) r := by
        rw [linkTypeAux, if_neg (not_not.mpr hl),
          linkLoadedType_eq_array h hr fun _ _ => linkTypeAux_of_ne_loaded]
      rw [heq]
      cases hb : W.baseComponent r with
      | none =>
        obtain ⟨hinv, hset, hdims⟩ :=
          linkArrayType_primitive (linkTypeAux W.toClassWorld t depth) hd.inv hr hl hb
        exact ⟨hinv, fun _ _ => hset, hdims⟩
      | some b =>
        obtain ⟨rfl, -⟩ := baseComponent_eq hb
        have hlinks : Links W (some r.base) r depth (linkTypeAux W.toClassWorld t depth)
            ⟨r.base, 0⟩ := linkTypeAux_links (fun _ => rfl) hlt
        have hbase : LinkReady W s r depth ⟨r.base, 0⟩ := by
          intro q hq
          refine hmem q (.inr (mem_flatMap.mpr ⟨⟨r.base, 0⟩, ?_, hq⟩))
          simp [hb]
        obtain ⟨hinv, hset, hdims⟩ := linkArrayType_class hd.inv hr hl hb hlinks
          (hbase.mono rfl (fun _ hq => hq) rfl (fun _ _ hq => hq) fun _ hq => .inl hq)
          (hmem r (.inl rfl))
        exact ⟨hinv, fun _ _ => hset, hdims⟩
    · rw [linkTypeAux_of_ne_loaded hl]
      exact ⟨h, fun _ hl' => absurd hl' hl, rfl⟩

end Calls

/-! ### Transitions -/

section Steps

variable {W : LayoutWorld} {s : TypeVm} {t : ℕ} {v v' : Vm} {c : ℕ}

structure DoneStates (c : ℕ) (v v' : Vm) : Prop where
  arrayDims : v'.arrayDims = v.arrayDims
  other : ∀ r : ClassRef, r.base ≠ c → v'.state r = v.state r
  outcome : v'.state ⟨c, 0⟩ = .initialized ∨ v'.state ⟨c, 0⟩ = .linkageError
  marked : ∀ d < v.arrayDims c, v'.state ⟨c, d + 1⟩ = v'.state ⟨c, 0⟩
  beyond : ∀ d, v.arrayDims c ≤ d → v'.state ⟨c, d + 1⟩ = v.state ⟨c, d + 1⟩

structure MarkedStates (c : ℕ) (v v' : Vm) : Prop where
  arrayDims : v'.arrayDims = v.arrayDims
  state : v'.state = Function.update v.state ⟨c, 0⟩ .initializing

/-- What a transition does to the states after it has linked: nothing, or it begins or ends the
initialisation of a class that is linked. -/
inductive StateEffect (W : LayoutWorld) (v v' : Vm) : Prop where
  | same : v'.state = v.state → v'.arrayDims = v.arrayDims → StateEffect W v v'
  | marks (c : ℕ) : ClassState.linked.rank ≤ (v.state ⟨c, 0⟩).rank → MarkedStates c v v' →
      StateEffect W v v'
  | settles (c : ℕ) : ClassState.linked.rank ≤ (v.state ⟨c, 0⟩).rank → W.isPrimitive c = false →
      DoneStates c v v' → StateEffect W v v'

theorem LinkedInv.congr (h : LinkedInv W none s) (hst : v.state = s.vm.state)
    (hdims : v.arrayDims = s.vm.arrayDims) : LinkedInv W none { s with vm := v } where
  boot := by
    rw [hst]
    exact h.boot
  primitive := by
    rw [hst]
    exact h.primitive
  tables := h.tables
  linked := by
    rw [hst]
    exact h.linked
  unlinked := by
    rw [hst]
    exact h.unlinked
  arrays := by
    rw [hst, hdims]
    exact h.arrays
  uniform := by
    rw [hst, hdims]
    exact h.uniform

theorem LinkedInv.marks (h : LinkedInv W none s)
    (hc : ClassState.linked.rank ≤ (s.vm.state ⟨c, 0⟩).rank) (hm : MarkedStates c s.vm v) :
    LinkedInv W none { s with vm := v } := by
  have hself : v.state ⟨c, 0⟩ = .initializing := by simp [hm.state]
  have hsucc : ∀ d, v.state ⟨c, d + 1⟩ = s.vm.state ⟨c, d + 1⟩ := by
    intro d
    simp [hm.state]
  refine h.family (c := c) (fun _ _ hb => hb) hm.arrayDims ?_ (fun _ hr => hr) ?_ ?_ h.tables
    ?_ ?_ ?_
  · intro r hr
    have hne : r ≠ ⟨c, 0⟩ := by
      rintro rfl
      exact hr rfl
    simp [hm.state, hne]
  · simp [hself]
  · intro _
    simp [hself, ClassState.rank]
  · intro hb d hk hrank
    cases d with
    | zero => exact h.linked _ hb hk hc
    | succ d =>
      rw [hsucc] at hrank
      exact h.linked _ hb hk hrank
  · intro hb _ d hd
    cases d with
    | zero => simp [hself, ClassState.rank]
    | succ d =>
      rw [hsucc]
      exact h.arrays c hb hc (d + 1) hd
  · intro hb d hd d' hd'
    rw [hsucc, hsucc]
    exact h.uniform c hb d hd d' hd'

theorem LinkedInv.settles (h : LinkedInv W none s)
    (hc : ClassState.linked.rank ≤ (s.vm.state ⟨c, 0⟩).rank) (hprim : W.isPrimitive c = false)
    (hm : DoneStates c s.vm v) : LinkedInv W none { s with vm := v } := by
  refine h.family (c := c) (fun _ _ hb => hb) hm.arrayDims hm.other (fun _ hr => hr) ?_
    (by simp [hprim]) h.tables ?_ ?_ ?_
  · rcases hm.outcome with ho | ho <;> simp [ho]
  · intro hb d hk hrank
    cases d with
    | zero => exact h.linked _ hb hk hc
    | succ d =>
      by_cases hd : d < s.vm.arrayDims c
      · exact h.linked _ hb hk (h.arrays c hb hc (d + 1) hd)
      · rw [hm.beyond d (by omega)] at hrank
        exact h.linked _ hb hk hrank
  · intro _ hrank d hd
    cases d with
    | zero => exact hrank
    | succ d =>
      rw [hm.marked d hd]
      exact hrank
  · intro _ d hd d' hd'
    rw [hm.marked d hd, hm.marked d' hd']

theorem StateEffect.linkedInv (h : LinkedInv W none s) (he : StateEffect W s.vm v) :
    LinkedInv W none { s with vm := v } := by
  cases he with
  | same hst hdims => exact h.congr hst hdims
  | marks c hc hm => exact h.marks hc hm
  | settles c hc hp hm => exact h.settles hc hp hm

/-- `done` gives the class and its array classes one state. -/
theorem done_states (v : Vm) (t c : ℕ) (rest : List Activation) (error : Bool)
    (why : Option Failure) : DoneStates c v (v.done t rest ⟨c, 0⟩ error why) := by
  have hstate : ∀ r, (v.done t rest ⟨c, 0⟩ error why).state r =
      if r.base = c ∧ 0 < r.dims ∧ r.dims ≤ v.arrayDims c then
        (if error then ClassState.linkageError else .initialized)
      else Function.update v.state ⟨c, 0⟩
        (if error then ClassState.linkageError else .initialized) r := fun _ => rfl
  have hself : (v.done t rest ⟨c, 0⟩ error why).state ⟨c, 0⟩ =
      if error then ClassState.linkageError else .initialized := by
    rw [hstate, if_neg (by simp), Function.update_self]
  refine ⟨rfl, ?_, ?_, ?_, ?_⟩
  · intro r hr
    have hne : r ≠ ⟨c, 0⟩ := by
      rintro rfl
      exact hr rfl
    rw [hstate, if_neg fun h => hr h.1, Function.update_of_ne hne]
  · rw [hself]
    cases error <;> simp
  · intro d hd
    rw [hself, hstate, if_pos ⟨rfl, Nat.succ_pos d, hd⟩]
  · intro d hd
    rw [hstate, if_neg (by dsimp only; omega), Function.update_of_ne (by simp)]

theorem initializeInterfaces_states (H : Hierarchy) (v : Vm) (t c : ℕ)
    (rest : List Activation) (m : Memory) (i : ℕ) : (initializeInterfaces H v t ⟨c, 0⟩ rest m
    i).state = v.state ∧
        (initializeInterfaces H v t ⟨c, 0⟩ rest m i).arrayDims = v.arrayDims ∨
      DoneStates c v (initializeInterfaces H v t ⟨c, 0⟩ rest m i) := by
  unfold initializeInterfaces
  split
  · exact .inl ⟨rfl, rfl⟩
  · split
    · obtain ⟨hdims, hother, hout, hin, hbeyond⟩ :=
        done_states (v.raise t .outOfMemoryError) t c rest true (some .aborted)
      exact .inr ⟨hdims, hother, hout, hin, hbeyond⟩
    · split
      · exact .inl ⟨rfl, rfl⟩
      · exact .inr (done_states v t c rest false none)

theorem linked_rank {x : ClassState} (h1 : x ≠ .loaded) (h2 : x ≠ .linkageError) :
    ClassState.linked.rank ≤ x.rank := by
  cases x <;> simp_all [ClassState.rank]

/-- The states that `initialize_class` leaves, from those after it has linked its class. -/
theorem enterInitializeClass_states {g : Prop} (hinv : InitInv W.toHierarchy g v)
    (t : ℕ) (r : ClassRef) (rest : List Activation) (m : Memory) :
    StateEffect W (if W.kind r ≠ .ordinaryArray ∧ v.state r ≠ .initialized ∧
        v.state r ≠ .linkageError ∧ (v.state r).rank < ClassState.linked.rank then
        (linkClass W.toHierarchy t v r).2 else v)
      (enterInitializeClass W.toHierarchy v t r rest m) := by
  unfold enterInitializeClass
  by_cases hk : W.kind r = .ordinaryArray
  · simp only [hk, ne_eq, not_true_eq_false, false_and, if_false, if_true]
    exact .same rfl rfl
  by_cases hs : v.state r = .initialized ∨ v.state r = .linkageError
  · rw [if_neg hk, if_pos hs, if_neg fun h => hs.elim h.2.1 h.2.2.1]
    exact .same rfl rfl
  rw [if_neg hk, if_neg hs]
  simp only [not_or] at hs
  have h0 := hinv.dims_eq_zero hk hs.1
  have hprim : W.isPrimitive r.base = false := by
    by_contra hp
    exact hs.1 (hinv.primitive r (by simpa using hp) (by omega))
  obtain ⟨c, d⟩ := r
  obtain rfl : d = 0 := h0
  have heq : (if W.kind ⟨c, 0⟩ ≠ .ordinaryArray ∧ v.state ⟨c, 0⟩ ≠ .initialized ∧
      v.state ⟨c, 0⟩ ≠ .linkageError ∧ (v.state ⟨c, 0⟩).rank < ClassState.linked.rank then
      (linkClass W.toHierarchy t v ⟨c, 0⟩).2 else v) =
      (if (v.state ⟨c, 0⟩).rank < ClassState.linked.rank then linkClass W.toHierarchy t v ⟨c, 0⟩
        else (0, v)).2 := by
    by_cases hr : (v.state ⟨c, 0⟩).rank < ClassState.linked.rank
    · rw [if_pos ⟨hk, hs.1, hs.2, hr⟩, if_pos hr]
    · rw [if_neg (fun h => hr h.2.2.2), if_neg hr]
  have hpast : (if (v.state ⟨c, 0⟩).rank < ClassState.linked.rank then
      linkClass W.toHierarchy t v ⟨c, 0⟩ else (0, v)).2.state ⟨c, 0⟩ ≠ .loaded := by
    split
    · exact linkClassAux_state_ne_loaded (linkDepth_pos W.toHierarchy ⟨c, 0⟩)
    · rename_i hr
      intro hl
      rw [show v.state ⟨c, 0⟩ = .loaded from hl] at hr
      exact hr (by decide)
  rw [heq]
  generalize (if (v.state ⟨c, 0⟩).rank < ClassState.linked.rank then
    linkClass W.toHierarchy t v ⟨c, 0⟩ else (0, v)) = l at hpast ⊢
  dsimp only
  split
  · exact .same rfl rfl
  · split
    · split
      · exact .same rfl rfl
      · exact .same rfl rfl
    · split
      · exact .same rfl rfl
      · rename_i hne
        have hready := linked_rank hpast hne
        split
        · exact .marks c hready ⟨rfl, rfl⟩
        · split
          · exact .marks c hready ⟨rfl, rfl⟩
          · rcases initializeInterfaces_states W.toHierarchy
              { l.2 with
                state := Function.update l.2.state ⟨c, 0⟩ .initializing
                initializingThread := Function.update l.2.initializingThread ⟨c, 0⟩ t }
              t c rest m 0 with ⟨hst, hdims⟩ | hdone
            · exact .marks c hready ⟨hdims, hst⟩
            · refine .settles c hready hprim { hdone with other := ?_, beyond := ?_ }
              · intro r hr
                rw [hdone.other r hr]
                have hne : r ≠ ⟨c, 0⟩ := by
                  rintro rfl
                  exact hr rfl
                simp [hne]
              · intro d hd
                rw [hdone.beyond d hd]
                simp

variable {a : Activation} {rest : List Activation}

theorem owner_ready {g : Prop}
    (hinv : InitInv W.toHierarchy g v) (hcalls : v.calls t = a :: rest) (hown : a.phase.owns = true) :
    ∃ c, a.cls = ⟨c, 0⟩ ∧ ClassState.linked.rank ≤ (v.state ⟨c, 0⟩).rank ∧
      W.isPrimitive c = false := by
  obtain ⟨hstate, -, h0⟩ := hinv.owner t a (by simp [hcalls]) hown
  obtain ⟨⟨c, d⟩, phase, result⟩ := a
  obtain rfl : d = 0 := h0
  refine ⟨c, rfl, by rw [hstate]; decide, ?_⟩
  by_contra hp
  rw [hinv.primitive ⟨c, 0⟩ (by simpa using hp) (Nat.zero_le 1)] at hstate
  cases hstate

theorem done_effect {g : Prop}
    (hinv : InitInv W.toHierarchy g v) (hcalls : v.calls t = a :: rest) (hown : a.phase.owns = true)
    {u : Vm} (hst : u.state = v.state) (hdims : u.arrayDims = v.arrayDims) (error : Bool)
    (why : Option Failure) : StateEffect W v (u.done t rest a.cls error why) := by
  obtain ⟨c, hcls, hready, hprim⟩ := owner_ready hinv hcalls hown
  rw [hcls]
  obtain ⟨h1, h2, h3, h4, h5⟩ := done_states u t c rest error why
  rw [hdims] at h1 h4 h5
  rw [hst] at h2 h5
  exact .settles c hready hprim ⟨h1, h2, h3, h4, h5⟩

theorem initializeInterfaces_effect {g : Prop}
    (hinv : InitInv W.toHierarchy g v) (hcalls : v.calls t = a :: rest) (hown : a.phase.owns = true)
    (m : Memory) (i : ℕ) :
    StateEffect W v (initializeInterfaces W.toHierarchy v t a.cls rest m i) := by
  obtain ⟨c, hcls, hready, hprim⟩ := owner_ready hinv hcalls hown
  rw [hcls]
  rcases initializeInterfaces_states W.toHierarchy v t c rest m i with ⟨hst, hdims⟩ | hdone
  · exact .same hst hdims
  · exact .settles c hready hprim hdone

variable {e : InitEvent}

/-- The states after a transition that creates no array class. -/
theorem initStep_states (hinv : InitInv W.toHierarchy False s.vm)
    (hnew : ∀ t r, e ≠ .createArray t r) (hstep : initStep W.toHierarchy s.vm e = some v) :
    StateEffect W (linkingOf W.toClassWorld s e).vm v := by
  cases e with
  | call t r | catchException t =>
    simp only [initStep, Option.ite_none_right_eq_some] at hstep
    obtain ⟨-, hv⟩ := hstep
    cases hv
    exact .same rfl rfl
  | link t r =>
    simp only [initStep, Option.ite_none_right_eq_some] at hstep
    obtain ⟨-, hv⟩ := hstep
    cases hv
    rw [linkingOf, linkType_vm]
    exact .same rfl rfl
  | createArray t r => exact absurd rfl (hnew t r)
  | poll t m =>
    simp only [initStep] at hstep
    simp only [linkingOf]
    split at hstep
    · cases hstep
    · rename_i a rest hcalls
      rw [hcalls]
      obtain ⟨r, phase, result⟩ := a
      cases phase with
      | enter =>
        obtain rfl : enterInitializeClass W.toHierarchy s.vm t r rest m = v :=
          Option.some.inj hstep
        have heffect := enterInitializeClass_states hinv t r rest m
        dsimp only
        split
        · rename_i hcond
          rw [if_pos hcond] at heffect
          rw [linkType_vm]
          exact heffect
        · rename_i hcond
          rw [if_neg hcond] at heffect
          exact heffect
      | waiting =>
        simp only [pollInitializeClass] at hstep
        split at hstep <;> cases hstep
        · exact .same rfl rfl
        · exact .same rfl rfl
      | superAwait =>
        cases result with
        | none => cases hstep
        | some res =>
          simp only [pollInitializeClass] at hstep
          split at hstep <;> cases hstep
          · exact done_effect hinv hcalls rfl rfl rfl _ _
          · exact initializeInterfaces_effect hinv hcalls rfl m 0
      | interfaceAwait i =>
        cases result with
        | none => cases hstep
        | some res =>
          simp only [pollInitializeClass] at hstep
          split at hstep <;> cases hstep
          · exact done_effect hinv hcalls rfl rfl rfl _ _
          · exact initializeInterfaces_effect hinv hcalls rfl m (i + 1)
      | clinit => cases result <;> cases hstep
  | clinitReturns t thrown error =>
    simp only [initStep] at hstep
    split at hstep
    · cases hstep
    · rename_i a rest hcalls
      rw [Option.ite_none_right_eq_some] at hstep
      obtain ⟨hphase, hv⟩ := hstep
      cases hv
      have hown : a.phase.owns = true := by rw [hphase]; rfl
      have hdone : ∀ u : Vm, u.state = s.vm.state → u.arrayDims = s.vm.arrayDims → ∀ b why,
          StateEffect W s.vm (u.done t rest a.cls b why) := fun u hst hdims =>
        done_effect hinv hcalls hown hst hdims
      unfold finishClinit
      split
      · exact hdone _ (by rfl) (by rfl) _ _
      · split
        · exact hdone _ (by rfl) (by rfl) _ _
        · exact hdone _ (by rfl) (by rfl) _ _

/-- A newly allocated descriptor beyond the existing array classes. -/
theorem LinkedInv.freshArray {r : ClassRef} (h : LinkedInv W none s)
    (hr : r.dims = s.vm.arrayDims r.base) : LinkedInv W none (s.freshArray r.array) := by
  have hstate : ∀ q, q ≠ r.array → (s.freshArray r.array).vm.state q = s.vm.state q := by
    intro q hq
    simp [TypeVm.freshArray, Vm.freshArray, hq]
  have hself : (s.freshArray r.array).vm.state r.array = .loaded := by
    simp [TypeVm.freshArray, Vm.freshArray]
  have hset : ∀ q, (s.freshArray r.array).setUp q = true ↔ s.setUp q = true ∧ q ≠ r.array := by
    intro q
    by_cases hq : q = r.array <;> simp [TypeVm.freshArray, hq]
  have hzero : ∀ c, (⟨c, 0⟩ : ClassRef) ≠ r.array := by simp [ClassRef.array]
  have hsmall : ∀ c d, d ≤ s.vm.arrayDims c → (⟨c, d⟩ : ClassRef) ≠ r.array := by
    rintro c d hd heq
    obtain ⟨rfl, rfl⟩ : c = r.base ∧ d = r.dims + 1 := by simpa [ClassRef.array] using heq
    omega
  constructor
  · intro p hp
    obtain ⟨hl, hs⟩ := h.boot p hp
    exact ⟨by rwa [hstate _ (hzero p)], (hset _).mpr ⟨hs, hzero p⟩⟩
  · intro c hc
    rw [hstate _ (hzero c)]
    exact h.primitive c hc
  · intro q hq
    obtain ⟨hq, hne⟩ := (hset q).mp hq
    obtain ⟨hd, hs, hf⟩ := h.tables q hq
    refine ⟨by simpa [TypeVm.freshArray, hne] using hd, fun p hp => ?_, hf⟩
    have hp0 := W.supers_dims hp
    obtain ⟨c, d⟩ := p
    obtain rfl : d = 0 := hp0
    exact (hset _).mpr ⟨hs _ hp, hzero c⟩
  · intro q hb hk hrank
    by_cases hq : q = r.array
    · rw [hq, hself] at hrank
      exact absurd hrank (by decide)
    · rw [hstate q hq] at hrank
      exact (hset q).mpr ⟨h.linked q hb hk hrank, hq⟩
  · intro q hb hl
    rw [hstate _ (hzero _)] at hl
    by_cases hq : q = r.array
    · rw [hq, hself]
      decide
    · rw [hstate q hq]
      exact h.unlinked q hb hl
  · intro c hb hrank d hd
    rw [hstate _ (hzero _)] at hrank
    rw [hstate _ (hsmall c d hd)]
    exact h.arrays c hb hrank d hd
  · intro c hb d hd d' hd'
    rw [hstate _ (hsmall c _ hd), hstate _ (hsmall c _ hd')]
    exact h.uniform c hb d hd d' hd'

/-- The array class over a linked component finds everything else linked. -/
theorem LinkedInv.freshArray_linksWhole {r : ClassRef} (h : LinkedInv W none s)
    (hr : r.dims = s.vm.arrayDims r.base)
    (hrank : ClassState.linked.rank ≤ ((s.freshArray r.array).vm.state r).rank) :
    W.linksWhole (s.freshArray r.array) r.array = true := by
  have hf := h.freshArray hr
  have hr0 : r.array.dims ≠ 0 := by simp [ClassRef.array]
  have hself : (s.freshArray r.array).vm.state r.array = .loaded := by
    simp [TypeVm.freshArray, Vm.freshArray]
  have hnone : ∀ depth p, (s.freshArray r.array).vm.state p ≠ .loaded →
      W.linkedBy (s.freshArray r.array) depth p = [] := by
    intro depth p hp
    cases depth with
    | zero => rfl
    | succ depth => simp [LayoutWorld.linkedBy, hp]
  have hready : W.linkReady (s.freshArray r.array) r.array r.array = true := by
    refine LayoutWorld.linkReady_iff.mpr ⟨fun p hp => .inr (hf.supers_array hr0 hp).2,
      fun d hd => .inl ?_, fun h0 => absurd h0 hr0⟩
    have hd' : d < s.vm.arrayDims r.base := hd
    obtain ⟨k, hk⟩ : ∃ k, r.dims = k + 1 := ⟨r.dims - 1, by omega⟩
    have hrk : r = ⟨r.base, k + 1⟩ := by rw [← hk]
    have hsame := hf.uniform r.base (by simp) d hd k (show k < s.vm.arrayDims r.base by omega)
    rw [← hrk] at hsame
    refine hf.linked _ (by simp) ?_ (by rw [← hsame] at hrank; exact hrank)
    intro hkind
    exact absurd (TypeWorld.kind_eq_primitive.mp hkind).2 (by simp)
  unfold LayoutWorld.linksWhole
  rw [all_eq_true]
  intro q hq
  obtain ⟨depth, hdepth⟩ : ∃ depth, W.linkDepth r.array = depth + 1 :=
    ⟨W.linkDepth r.array - 1, by have := linkDepth_pos W.toHierarchy r.array; omega⟩
  rw [hdepth] at hq
  simp only [LayoutWorld.linkedBy, hself, ne_eq, not_true_eq_false, if_false, mem_cons,
    mem_flatMap, mem_append, Option.mem_toList] at hq
  rcases hq with rfl | ⟨p, hp, hq⟩
  · exact hready
  · rcases hp with hp | hp
    · rw [hnone depth p (hf.supers_array hr0 hp).1] at hq
      simp at hq
    · obtain ⟨rfl, -⟩ := baseComponent_eq hp
      rw [hnone depth _ fun hl => ?_] at hq
      · simp at hq
      · have := hf.unlinked r (by simp) hl
        omega

/-- `get_or_create_array_classdesc` keeps the invariant. -/
theorem createArray_linkedInv {r : ClassRef} (h : LinkedInv W none s)
    (hr : r.dims = s.vm.arrayDims r.base) :
    LinkedInv W none { linkNewArrayType W.toClassWorld s t r with
      vm := (createArrayClass W.toHierarchy s.vm t r).quiet } := by
  obtain ⟨hinv, hset, hdims⟩ : LinkedInv W none (linkNewArrayType W.toClassWorld s t r) ∧
      (ClassState.linked.rank ≤ ((linkNewArrayType W.toClassWorld s t r).vm.state r).rank →
        (linkNewArrayType W.toClassWorld s t r).setUp r.array = true) ∧
      (linkNewArrayType W.toClassWorld s t r).vm.arrayDims = s.vm.arrayDims := by
    have hf := h.freshArray hr
    unfold linkNewArrayType
    dsimp only
    split
    · rename_i hrank
      obtain ⟨hinv, hset, hdims⟩ := linkType_linkedInv (t := t) hf (h.freshArray_linksWhole hr hrank)
      refine ⟨hinv, fun _ => hset (by simp [ClassRef.array]) ?_, hdims⟩
      simp [TypeVm.freshArray, Vm.freshArray]
    · rename_i hrank
      exact ⟨hf, fun h => absurd h hrank, rfl⟩
  have hvm := linkNewArrayType_vm (W := W.toClassWorld) (t := t) s r
  have hstate : (createArrayClass W.toHierarchy s.vm t r).quiet.state = Function.update
      (linkNewArrayType W.toClassWorld s t r).vm.state r.array
      ((linkNewArrayType W.toClassWorld s t r).vm.state r) := by
    rw [hvm]
    rfl
  have hnewDims : (createArrayClass W.toHierarchy s.vm t r).quiet.arrayDims = Function.update
      (linkNewArrayType W.toClassWorld s t r).vm.arrayDims r.base (r.dims + 1) := by
    rw [hvm]
    rfl
  rw [← hdims] at hr
  generalize linkNewArrayType W.toClassWorld s t r = s1 at hinv hset hr hstate hnewDims ⊢
  generalize (createArrayClass W.toHierarchy s.vm t r).quiet = v at hstate hnewDims ⊢
  have hzero : ∀ c, v.state ⟨c, 0⟩ = s1.vm.state ⟨c, 0⟩ := by
    intro c
    simp [hstate, ClassRef.array]
  have hself : v.state r.array = s1.vm.state r := by simp [hstate]
  have hother : ∀ q, q ≠ r.array → v.state q = s1.vm.state q := by
    intro q hq
    simp [hstate, hq]
  have hsmall : ∀ d ≤ r.dims, v.state ⟨r.base, d⟩ = s1.vm.state ⟨r.base, d⟩ := by
    intro d hd
    apply hother
    intro heq
    have hdr : d = r.dims + 1 := congrArg ClassRef.dims heq
    omega
  have hbase : ∀ c, c ≠ r.base → v.arrayDims c = s1.vm.arrayDims c ∧
      ∀ d, v.state ⟨c, d⟩ = s1.vm.state ⟨c, d⟩ := by
    intro c hc
    refine ⟨by simp [hnewDims, hc], fun d => hother _ fun heq => hc ?_⟩
    exact congrArg ClassRef.base heq
  -- The new class has the state of its component, and so has every array class below it.
  have hlast : ∀ d ≤ r.dims, v.state ⟨r.base, d + 1⟩ = s1.vm.state r := by
    intro d hd
    rcases Nat.lt_or_eq_of_le hd with hlt | rfl
    · rw [hsmall (d + 1) hlt]
      obtain ⟨k, hk⟩ : ∃ k, r.dims = k + 1 := ⟨r.dims - 1, by omega⟩
      rw [hinv.uniform r.base (by simp) d (by omega) k (by omega), ← hk]
    · exact hself
  constructor
  · intro p hp
    rw [show ({ s1 with vm := v } : TypeVm).vm = v from rfl, hzero]
    exact hinv.boot p hp
  · intro c hc
    rw [show ({ s1 with vm := v } : TypeVm).vm = v from rfl, hzero]
    exact hinv.primitive c hc
  · exact hinv.tables
  · intro q hb hk hrank
    by_cases hq : q = r.array
    · subst hq
      exact hset (by rw [← hself]; exact hrank)
    · exact hinv.linked q hb hk (by rw [← hother q hq]; exact hrank)
  · intro q hb hl
    have hl' : s1.vm.state ⟨q.base, 0⟩ = .loaded := (hzero q.base).symm.trans hl
    by_cases hq : q = r.array
    · subst hq
      show (v.state r.array).rank < _
      rw [hself]
      exact hinv.unlinked r hb hl'
    · show (v.state q).rank < _
      rw [hother q hq]
      exact hinv.unlinked q hb hl'
  · intro c hb hrank d hd
    have hrank' : ClassState.linked.rank ≤ (s1.vm.state ⟨c, 0⟩).rank := by
      rw [← hzero]
      exact hrank
    show ClassState.linked.rank ≤ (v.state ⟨c, d⟩).rank
    by_cases hc : c = r.base
    · subst hc
      cases d with
      | zero => exact hrank
      | succ d =>
        have hd' : d ≤ r.dims := by simpa [hnewDims] using hd
        rw [hlast d hd']
        exact hinv.arrays r.base hb hrank' r.dims hr.le
    · rw [(hbase c hc).2]
      exact hinv.arrays c hb hrank' d (by rw [← (hbase c hc).1]; exact hd)
  · intro c hb d hd d' hd'
    show v.state ⟨c, d + 1⟩ = v.state ⟨c, d' + 1⟩
    by_cases hc : c = r.base
    · subst hc
      have hlt : ∀ e, e < v.arrayDims r.base → e ≤ r.dims := by
        intro e he
        simp only [hnewDims, Function.update_self] at he
        omega
      rw [hlast d (hlt d hd), hlast d' (hlt d' hd')]
    · have hdims' := (hbase c hc).1
      rw [(hbase c hc).2, (hbase c hc).2]
      exact hinv.uniform c hb d (by rw [← hdims']; exact hd) d' (by rw [← hdims']; exact hd')

theorem linkingOf_linkedInv (h : LinkedInv W none s)
    (hnew : ∀ t r, e ≠ .createArray t r) (hok : W.linksWell s e = true) :
    LinkedInv W none (linkingOf W.toClassWorld s e) := by
  cases e with
  | link t r => exact (linkType_linkedInv h
    (by simpa [LayoutWorld.linksWell, LayoutWorld.linkTarget] using hok)).1
  | createArray t r => exact absurd rfl (hnew t r)
  | poll t m =>
    simp only [linkingOf]
    split
    · rename_i r result rest hcalls
      split
      · rename_i hcond
        refine (linkType_linkedInv h ?_).1
        simpa [LayoutWorld.linksWell, LayoutWorld.linkTarget, hcalls, hcond.1] using hok
      · exact h
    · exact h
  | call t r => exact h
  | catchException t => exact h
  | clinitReturns t thrown error => exact h

theorem tableStep_linkedInv {s' : TypeVm} (h : LinkedInv W none s)
    (hinit : InitInv W.toHierarchy False s.vm) (hok : W.linksWell s e = true)
    (hstep : tableStep W.toClassWorld s e = some s') : LinkedInv W none s' := by
  obtain ⟨v, hv, rfl⟩ := Option.map_eq_some_iff.mp hstep
  by_cases hnew : ∀ t r, e ≠ .createArray t r
  · exact (initStep_states hinit hnew hv).linkedInv (linkingOf_linkedInv h hnew hok)
  · simp only [not_forall, not_not] at hnew
    obtain ⟨t, r, rfl⟩ := hnew
    simp only [initStep, Option.ite_none_right_eq_some] at hv
    obtain ⟨⟨-, hr⟩, hv⟩ := hv
    cases hv
    exact createArray_linkedInv h hr

end Steps

section Runs

variable {W : LayoutWorld} {s : TypeVm}

theorem start_state_eq (r : ClassRef) : (TypeVm.start W.toClassWorld).vm.state r =
    if r.dims = 0 ∧ r.base ∈ [W.object, W.cloneable, W.serializable] then .linked
    else if W.isPrimitive r.base ∧ r.dims ≤ 1 then .initialized else .loaded := rfl

theorem start_linkedInv (hW : W.BootClasses) :
    LinkedInv W none (TypeVm.start W.toClassWorld) := by
  constructor
  · intro p hp
    rw [start_state_eq, if_pos ⟨rfl, hp⟩]
    exact ⟨by simp, TypeWorld.bootRef_of ⟨rfl, hp⟩⟩
  · intro c hc
    rw [start_state_eq]
    split
    · exact le_rfl
    · rw [if_pos ⟨hc, Nat.zero_le 1⟩]
      decide
  · intro r hr
    have hb : TypeVm.bootRef W.toClassWorld r = true := hr
    refine ⟨?_, fun p hp => ?_, fun h0 => ?_⟩
    · simp only [TypeVm.start, hb, if_true]
      split <;> simp
    · exact TypeWorld.bootRef_of (TypeWorld.bootRef_supers hW.toWellFormed hb hp)
    · have hmem : r.base ∈ [W.object, W.cloneable, W.serializable] := by
        simpa [TypeVm.bootRef, h0] using hb
      exact (hW.ordinary _ hmem).2
  · intro r _ hk hrank
    rw [start_state_eq] at hrank
    split at hrank
    · rename_i hboot
      exact TypeWorld.bootRef_of hboot
    · split at hrank
      · rename_i hp
        have h1 : r.dims = 1 := by
          by_contra hne
          exact hk (TypeWorld.kind_eq_primitive.mpr ⟨hp.1, by omega⟩)
        simp [TypeVm.start, TypeVm.bootRef, h1, hp.1]
      · exact absurd hrank (by decide)
  · intro r _ hl
    rw [start_state_eq] at hl ⊢
    split at hl
    · cases hl
    · rename_i hboot
      split at hl
      · cases hl
      · rename_i hp
        have hnp : ¬ (W.isPrimitive r.base = true) := fun h => hp ⟨h, Nat.zero_le 1⟩
        rw [if_neg fun h => hboot ⟨rfl, h.2⟩, if_neg fun h => hnp h.1]
        decide
  · intro c _ hrank d hd
    have hd' : d ≤ if W.isPrimitive c then 1 else 0 := hd
    cases d with
    | zero => exact hrank
    | succ d =>
      split at hd'
      · rename_i hp
        rw [start_state_eq, if_neg (by simp), if_pos ⟨hp, by dsimp only; omega⟩]
        decide
      · omega
  · intro c _ d hd d' hd'
    have hone : ∀ e, e < (TypeVm.start W.toClassWorld).vm.arrayDims c → e = 0 := by
      intro e he
      have he' : e < if W.isPrimitive c then 1 else 0 := he
      split at he' <;> omega
    rw [hone d hd, hone d' hd']

theorem start_initInv (hW : W.BootClasses) :
    InitInv W.toHierarchy False (TypeVm.start W.toClassWorld).vm := by
  have hinitial : ∀ r, (Vm.initial W.toHierarchy).state r =
      if W.isPrimitive r.base ∧ r.dims ≤ 1 then .initialized else .loaded := fun _ => rfl
  have hnot : ∀ p ∈ [W.object, W.cloneable, W.serializable], ¬ (W.isPrimitive p = true) := by
    intro p hp
    simp [(hW.ordinary p hp).1]
  have hkeep : ∀ r : ClassRef, W.isPrimitive r.base = true →
      (TypeVm.start W.toClassWorld).vm.state r = (Vm.initial W.toHierarchy).state r := by
    intro r hr
    rw [start_state_eq, if_neg fun h => hnot _ h.2 hr, hinitial]
  refine (initial_inv W.toHierarchy False).frame ⟨rfl, rfl, rfl, ?_, ?_, fun _ h => h, ?_,
    fun _ _ => le_rfl⟩
  · intro c hc
    rw [hinitial] at hc
    have hp : W.isPrimitive c = true := by
      by_contra hp
      exact hc (if_neg fun h => hp h.1)
    exact ⟨hkeep ⟨c, 0⟩ hp, rfl⟩
  · intro c hc
    rw [start_state_eq]
    split
    · exact .inr (.inl rfl)
    · exact .inl hc
  · intro r hp _ hr
    rw [hkeep r hp]
    exact hr

theorem LinkedInv.layoutOf_isSome (h : LinkedInv W none s) {c : ℕ}
    (hc : s.setUp ⟨c, 0⟩ = true) : (W.layoutOf s c).isSome := by
  induction c using Nat.strongRecOn with
  | ind c ih =>
    obtain ⟨-, hsupers, hfields⟩ := h.tables ⟨c, 0⟩ hc
    have hlink := fun super => linkFields_isSome (w := W.width) (hfields rfl) W.objHeader super
    rw [LayoutWorld.layoutOf, if_pos hc]
    split
    · obtain ⟨l, hl⟩ := hlink none
      rw [hl]
      rfl
    · rename_i p hp
      have hmem : (⟨p, 0⟩ : ClassRef) ∈ W.supers ⟨c, 0⟩ := by simp [Hierarchy.supers, hp]
      obtain ⟨super, hsuper⟩ := Option.isSome_iff_exists.mp
        (ih p (W.super_lt hp) (hsupers _ hmem))
      obtain ⟨l, hl⟩ := hlink (some super)
      rw [hsuper, Option.bind_some, hl]
      rfl

theorem LinkedInv.linkedAbove (h : LinkedInv W none s) (ht : TypeInv W.toClassWorld s)
    {r : ClassRef} (hr : s.setUp r = true) : W.LinkedAbove s r := by
  intro p hp
  have hset : s.setUp p = true := by
    induction hp with
    | refl => exact hr
    | tail _ hsuper ih => exact (h.tables _ ih).2.1 _ hsuper
  have hd := (h.tables p hset).1
  refine ⟨⟨hd, (ht.display p).resolve_left hd⟩, hset, fun h0 => ?_⟩
  obtain ⟨c, d⟩ := p
  obtain rfl : d = 0 := h0
  exact h.layoutOf_isSome hset

/-- In every run whose transitions link well, every class and array class in a state from
`CD_STATE_LINKED` on has its tables, and so have all classes and interfaces above it. -/
theorem linkedState_tables (W : LayoutWorld) (hW : W.BootClasses) {s : TypeVm}
    (hs : Runs (tableStep W.toClassWorld) (fun s e => W.linksWell s e = true)
      (TypeVm.start W.toClassWorld) s) {r : ClassRef} (hk : W.kind r ≠ .primitive)
    (hr : ClassState.linked.rank ≤ (s.vm.state r).rank) : W.LinkedAbove s r := by
  have hinv : TypeInv W.toClassWorld s ∧ InitInv W.toHierarchy False s.vm ∧
      LinkedInv W none s := by
    refine hs.invariant (fun s => TypeInv W.toClassWorld s ∧ InitInv W.toHierarchy False s.vm ∧
      LinkedInv W none s)
      ⟨TypeWorld.start_inv hW.toWellFormed, start_initInv hW, start_linkedInv hW⟩ ?_
    rintro v e w ⟨ht, hi, hl⟩ hok hstep
    refine ⟨tableStep_inv ht hstep, ?_, tableStep_linkedInv hl hi hok hstep⟩
    obtain ⟨u, hu, rfl⟩ := Option.map_eq_some_iff.mp hstep
    exact (initStep_good hi (fun h => h.elim) hu).inv
  exact hinv.2.2.linkedAbove hinv.1 (hinv.2.2.linked r (by simp) hk hr)

end Runs

/-- The boot classes, the types `boolean` and `int` and a class `Point`. -/
def pointTypes : LayoutWorld where
  isPrimitive c := c = 3 || c = 4
  superClass
    | 1 => some 0
    | 2 => some 0
    | 5 => some 0
    | _ => none
  interfaces _ := []
  hasClinit _ := false
  verifies _ := true
  object := 0
  cloneable := 1
  serializable := 2
  super_lt := by
    intro c p h
    split at h <;> cases h <;> decide
  interfaces_lt := Hierarchy.lt_of_mem_nil
  className
    | 0 => "java/lang/Object"
    | 1 => "java/lang/Cloneable"
    | 2 => "java/io/Serializable"
    | 3 => "boolean"
    | 4 => "int"
    | _ => "Point"
  loader _ := 0
  isInterface c := c = 1 || c = 2
  methods _ := []
  my_class := ClassWorld.my_class_nil
  my_index := ClassWorld.my_index_nil
  primitiveKind c := if c = 3 then .boolean else .int
  primitive_unique := TypeWorld.bootTypes.primitive_unique
  width := .bits32
  objHeader := 8
  fieldsOf _ := ⟨[], none⟩

theorem pointTypes_bootClasses : pointTypes.BootClasses where
  root _ := rfl
  object_ := by decide
  cloneable_ := by decide
  serializable_ := by decide
  ordinary := by decide

/-- `new Point[2][3]` before `Point` has been linked. -/
theorem linkedState_tables_twoDimensions :
    ∃ s, Runs (tableStep pointTypes.toClassWorld) (fun s e => pointTypes.linksWell s e = true)
        (TypeVm.start pointTypes.toClassWorld) s ∧
      s.vm.state ⟨5, 2⟩ = .linked ∧ pointTypes.LinkedAbove s ⟨5, 2⟩ := by
  have hrun : ∃ s, checkedRun (tableStep pointTypes.toClassWorld) pointTypes.linksWell
      (TypeVm.start pointTypes.toClassWorld)
      [.createArray 0 ⟨5, 0⟩, .createArray 0 ⟨5, 1⟩, .link 0 ⟨5, 2⟩] = some s ∧
      s.vm.state ⟨5, 2⟩ = .linked := ⟨_, rfl, rfl⟩
  obtain ⟨s, hs, hst⟩ := hrun
  have hruns := runs_of_checkedRun hs
  refine ⟨s, hruns, hst, linkedState_tables pointTypes pointTypes_bootClasses hruns (by decide) ?_⟩
  rw [hst]

/-- `new Point[2][3][4]` before `Point` has been linked: the arrays of two dimensions are no
instances of `Object`. -/
theorem linkedState_threeDimensions :
    ∃ s, Reachable (tableStep pointTypes.toClassWorld) (TypeVm.start pointTypes.toClassWorld) s ∧
      s.vm.state ⟨5, 2⟩ = .linked ∧ ¬ pointTypes.LinkedAbove s ⟨5, 2⟩ ∧
      pointTypes.instanceof s ⟨5, 2⟩ ⟨0, 0⟩ = some false := by
  have hrun : ∃ s, run (tableStep pointTypes.toClassWorld)
      (TypeVm.start pointTypes.toClassWorld)
      [.createArray 0 ⟨5, 0⟩, .createArray 0 ⟨5, 1⟩, .createArray 0 ⟨5, 2⟩, .link 0 ⟨5, 3⟩] =
        some s ∧ s.vm.state ⟨5, 2⟩ = .linked ∧ s.setUp ⟨5, 2⟩ = false ∧
      pointTypes.instanceof s ⟨5, 2⟩ ⟨0, 0⟩ = some false := ⟨_, rfl, rfl, rfl, rfl⟩
  obtain ⟨s, hs, hst, hset, hinst⟩ := hrun
  refine ⟨s, reachable_of_run hs, hst, fun habove => ?_, hinst⟩
  have htables := (habove ⟨5, 2⟩ .refl).functionTables
  rw [hset] at htables
  cases htables

end TraceJvm
