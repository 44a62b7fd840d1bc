import TraceJvm.InterfaceDispatch
import TraceJvm.TypeTables

/-! What linking leaves in the tables that `instanceof` reads. A descriptor is written once, when
its supertypes are no longer merely loaded, and theirs are not written afterwards. -/
namespace TraceJvm

open ClassWorld List

variable {W : ClassWorld} {t : ℕ}

/-! ### The tables do not influence linking -/

section Erasure

abbrev forget (x : ℤ × TypeVm) : ℤ × Vm := (x.1, x.2.vm)

variable {link : TypeVm → ClassRef → ℤ × TypeVm} {link' : Vm → ClassRef → ℤ × Vm}

theorem linkTypes_forget (h : ∀ s r, forget (link s r) = link' s.vm r) (s : TypeVm)
    (ps : List ClassRef) : forget (linkTypes link s ps) = linkAll link' s.vm ps := by
  induction ps generalizing s with
  | nil => rfl
  | cons p ps ih =>
    have hp := h s p
    simp only [linkTypes, linkAll, ← hp, forget]
    split
    · rfl
    · exact ih _

theorem linkArrayType_forget (h : ∀ s r, forget (link s r) = link' s.vm r) (s : TypeVm)
    (r : ClassRef) :
    forget (linkArrayType W link s r) = linkArrayClass W.toHierarchy link' s.vm r := by
  unfold linkArrayType linkArrayClass
  split
  · rfl
  · cases hb : W.baseComponent r with
    | none => rfl
    | some b =>
      have hl := h (s.mapVm fun v => v.setState r .linked) b
      dsimp only [TypeVm.mapVm] at hl ⊢
      rw [← hl]
      rfl

theorem linkAll_append (link : Vm → ClassRef → ℤ × Vm) (s : Vm) (ps qs : List ClassRef) :
    linkAll link s (ps ++ qs) =
      if (linkAll link s ps).1 ≠ 0 then linkAll link s ps
      else linkAll link (linkAll link s ps).2 qs := by
  induction ps generalizing s with
  | nil => simp [linkAll]
  | cons p ps ih =>
    simp only [cons_append, linkAll]
    by_cases hp : (link s p).1 ≠ 0
    · simp [hp]
    · simp only [hp, if_false]
      exact ih _

theorem supers_eq (r : ClassRef) :
    W.supers r = (W.superOf r).toList ++ W.interfacesOf r := by
  unfold Hierarchy.supers ClassWorld.superOf ClassWorld.interfacesOf
  split
  · cases W.superClass r.base <;> simp
  · rfl

theorem linkLoadedType_forget (h : ∀ s r, forget (link s r) = link' s.vm r) (s : TypeVm)
    (r : ClassRef) :
    forget (linkLoadedType W t link s r) = linkLoaded W.toHierarchy t link' s.vm r := by
  have hsuper := linkTypes_forget h s (W.superOf r).toList
  have hint := linkTypes_forget h
    ((linkTypes link s (W.superOf r).toList).2.setupSuperHierarchy W r) (W.interfacesOf r)
  have harr := linkArrayType_forget (W := W) h
  unfold linkLoadedType linkLoaded
  dsimp only
  rw [supers_eq, linkAll_append, ← hsuper]
  generalize linkTypes link s (W.superOf r).toList = l at hint ⊢
  by_cases hl : l.1 ≠ 0
  · simp only [forget, if_pos hl]
    rfl
  · have hint' : linkAll link' l.2.vm (W.interfacesOf r) = _ := hint.symm
    simp only [forget, if_neg hl, hint']
    generalize linkTypes link (l.2.setupSuperHierarchy W r) (W.interfacesOf r) = m
    by_cases hm : m.1 ≠ 0
    · simp only [if_pos hm]
      rfl
    · simp only [if_neg hm]
      by_cases hk : W.kind r ≠ .ordinary
      · simp only [if_pos hk]
        exact harr m.2 r
      · simp only [if_neg hk]
        have ha := harr (m.2.mapVm fun v => v.setState r .linked) ⟨r.base, 1⟩
        simp only [forget, TypeVm.mapVm] at ha ⊢
        rw [← ha]
        by_cases hd : (m.2.vm.setState r .linked).arrayDims r.base = 0 <;>
          by_cases hv : W.verifies r.base <;>
          simp [TypeVm.setUpFunctionTables, hd, hv]

theorem linkTypeAux_forget (d : ℕ) (s : TypeVm) (r : ClassRef) :
    forget (linkTypeAux W t d s r) = linkClassAux W.toHierarchy t d s.vm r := by
  induction d generalizing s r with
  | zero => rfl
  | succ d ih =>
    unfold linkTypeAux linkClassAux
    split
    · rfl
    · exact linkLoadedType_forget ih s r

theorem linkType_vm (s : TypeVm) (r : ClassRef) :
    (linkType W t s r).2.vm = (linkClass W.toHierarchy t s.vm r).2 :=
  congrArg Prod.snd (linkTypeAux_forget (t := t) (W.linkDepth r) s r)

end Erasure

/-! ### A linked class is no longer merely loaded -/

theorem linkArrayClass_state_ne_loaded {H : Hierarchy} {d : ℕ} {s : Vm} {r q : ClassRef}
    (hq : q = r ∨ s.state q ≠ .loaded) :
    (linkArrayClass H (linkClassAux H t d) s r).2.state q ≠ .loaded := by
  unfold linkArrayClass
  split
  · rename_i hr
    rcases hq with rfl | hq
    · intro hl
      rw [show s.state q = .loaded from hl] at hr
      exact absurd hr (by decide)
    · exact hq
  · have hset : (s.setState r .linked).state q ≠ .loaded := by
      by_cases hqr : q = r
      · simp [Vm.setState, hqr]
      · simpa [Vm.setState, hqr] using hq.resolve_left hqr
    cases H.baseComponent r with
    | none => exact hset
    | some b =>
      have hlink := (linkClassAux_frame H t d (H.span b) (s.setState r .linked) b le_rfl).arrays q
        hset
      have harr : ∀ st : ClassState, st ≠ .loaded →
          ((linkClassAux H t d (s.setState r .linked) b).2.setArrayStates b.base st).state q ≠
            .loaded := by
        intro st hst
        unfold Vm.setArrayStates
        dsimp only
        split
        · exact hst
        · exact hlink
      dsimp only
      split
      · exact harr _ (by simp)
      · exact harr _ (by simp)

theorem linkClassAux_state_ne_loaded {H : Hierarchy} {d : ℕ} {s : Vm} {r : ClassRef}
    (hd : 0 < d) : (linkClassAux H t d s r).2.state r ≠ .loaded := by
  obtain ⟨d, rfl⟩ : ∃ e, d = e + 1 := ⟨d - 1, by omega⟩
  unfold linkClassAux
  split
  · assumption
  · unfold linkLoaded
    dsimp only
    split
    · simp [Vm.recordLinkageError]
    · split
      · exact linkArrayClass_state_ne_loaded (.inl rfl)
      · have hstate : ∀ v : Vm, v.state r ≠ .loaded →
            (if v.arrayDims r.base = 0 then v
              else (linkArrayClass H (linkClassAux H t d) v ⟨r.base, 1⟩).2).state r ≠ .loaded := by
          intro v hv
          split
          · exact hv
          · exact linkArrayClass_state_ne_loaded (.inr hv)
        split
        · exact hstate _ (by simp [Vm.setState])
        · simp [Vm.recordLinkageError]

/-! ### The equations of the tables -/

/-- The tables of every descriptor are as its supertypes' tables require, and the supertypes of a
descriptor that has them are past loading. -/
structure TypeInv (W : ClassWorld) (s : TypeVm) : Prop where
  boot : ∀ p ∈ [W.object, W.cloneable, W.serializable], s.vm.state ⟨p, 0⟩ ≠ .loaded
  primitive : ∀ c, W.isPrimitive c → s.vm.state ⟨c, 0⟩ ≠ .loaded
  display : ∀ r, s.hierarchy r = [] ∨ s.hierarchy r = TypeVm.displayOf W s r
  displaySuper : ∀ r p, s.hierarchy r ≠ [] → W.superOf r = some p → s.vm.state p ≠ .loaded
  interfaces : ∀ r, s.setUp r = true → ∀ j, j ∈ s.interfaces r ↔
    ((W.superOf r).isSome ∧ ∃ p ∈ W.supers r, j ∈ s.interfaces p) ∨ W.interfaceFlag r ∧ j = r
  unset : ∀ r, s.setUp r = false → s.interfaces r = []
  supers : ∀ r, s.setUp r = true → ∀ p ∈ W.supers r, s.vm.state p ≠ .loaded

/-- Linking writes no table of a class from `n` on, nor of one that is past loading. -/
def TypeFrame (n : ℕ) (s s' : TypeVm) : Prop :=
  ∀ c, n ≤ c ∨ s.vm.state ⟨c, 0⟩ ≠ .loaded → s'.hierarchy ⟨c, 0⟩ = s.hierarchy ⟨c, 0⟩ ∧
    s'.tables ⟨c, 0⟩ = s.tables ⟨c, 0⟩ ∧ s'.setUp ⟨c, 0⟩ = s.setUp ⟨c, 0⟩

def PastLoading (s s' : TypeVm) : Prop :=
  ∀ r, r.dims = 0 → s.vm.state r ≠ .loaded → s'.vm.state r ≠ .loaded

theorem TypeFrame.trans {n : ℕ} {s s' s'' : TypeVm} (h : TypeFrame n s s')
    (h' : TypeFrame n s' s'') (hp : PastLoading s s') : TypeFrame n s s'' := by
  intro c hc
  obtain ⟨h1, h2, h3⟩ := h c hc
  obtain ⟨k1, k2, k3⟩ := h' c (hc.imp id (hp ⟨c, 0⟩ rfl))
  exact ⟨k1.trans h1, k2.trans h2, k3.trans h3⟩

theorem TypeFrame.mono {n m : ℕ} {s s' : TypeVm} (h : TypeFrame n s s') (hnm : n ≤ m) :
    TypeFrame m s s' := fun c hc => h c (hc.imp (fun h => hnm.trans h) id)

namespace TypeInv

variable {s : TypeVm} {r : ClassRef}

theorem mapVm (h : TypeInv W s) {f : Vm → Vm} (hf : PastLoading s (s.mapVm f)) :
    TypeInv W (s.mapVm f) :=
  { h with
    boot p hp := hf _ rfl (h.boot p hp)
    primitive c hc := hf _ rfl (h.primitive c hc)
    displaySuper r p hr hp := hf p (superOf_dims hp) (h.displaySuper r p hr hp)
    supers r hr p hp := hf p (W.supers_dims hp) (h.supers r hr p hp) }

theorem supers_boot (h : TypeInv W s) (hr : r.dims ≠ 0) :
    ∀ p ∈ W.supers r, s.vm.state p ≠ .loaded := by
  intro p hp
  simp only [Hierarchy.supers, hr, if_false, mem_cons, not_mem_nil, or_false] at hp
  rcases hp with rfl | rfl | rfl
  iterate 3 exact h.boot _ (by simp)

theorem setupSuperHierarchy (h : TypeInv W s)
    (hp : ∀ p, W.superOf r = some p → s.vm.state p ≠ .loaded)
    (hr : r.dims ≠ 0 ∨ s.vm.state r = .loaded) : TypeInv W (s.setupSuperHierarchy W r) := by
  have hsub : ∀ q, W.superOf q = some r → s.hierarchy q = [] := by
    intro q hq
    by_contra hne
    rcases hr with hr | hr
    · exact hr (superOf_dims hq)
    · exact h.displaySuper q r hne hq hr
  have hself : W.superOf r ≠ some r := by
    intro hrr
    rcases hr with hr | hr
    · exact hr (superOf_dims hrr)
    · exact hp r hrr hr
  have hvalue : (s.setupSuperHierarchy W r).hierarchy r = TypeVm.displayOf W s r := by
    simp [TypeVm.setupSuperHierarchy]
  have hother : ∀ q, q ≠ r → (s.setupSuperHierarchy W r).hierarchy q = s.hierarchy q := by
    intro q hq
    simp [TypeVm.setupSuperHierarchy, hq]
  have hdisplay : ∀ q, W.superOf q ≠ some r →
      TypeVm.displayOf W (s.setupSuperHierarchy W r) q = TypeVm.displayOf W s q := by
    intro q hq
    unfold TypeVm.displayOf
    cases hqp : W.superOf q with
    | none => rfl
    | some p =>
      have hpr : p ≠ r := by
        rintro rfl
        exact hq hqp
      simp only [hother p hpr]
  constructor
  · exact h.boot
  · exact h.primitive
  · intro q
    by_cases hqr : q = r
    · subst hqr
      right
      rw [hvalue, hdisplay q hself]
    · rw [hother q hqr]
      by_cases hq : W.superOf q = some r
      · exact .inl (hsub q hq)
      · rw [hdisplay q hq]
        exact h.display q
  · intro q p hq hqp
    by_cases hqr : q = r
    · subst hqr
      exact hp p hqp
    · rw [hother q hqr] at hq
      exact h.displaySuper q p hq hqp
  · exact h.interfaces
  · exact h.unset
  · exact h.supers

theorem setUpFunctionTables (h : TypeInv W s)
    (hp : ∀ p ∈ W.supers r, s.vm.state p ≠ .loaded)
    (hno : ∀ q, r ∈ W.supers q → s.setUp q = false) : TypeInv W (s.setUpFunctionTables W r) := by
  have hself : r ∉ W.supers r := by
    intro hrr
    have h0 := W.supers_dims hrr
    exact absurd (W.supers_base_lt hrr h0) (lt_irrefl _)
  have hother : ∀ q, q ≠ r → (s.setUpFunctionTables W r).interfaces q = s.interfaces q := by
    intro q hq
    simp [TypeVm.setUpFunctionTables, TypeVm.interfaces, hq]
  have hset : ∀ q, q ≠ r → (s.setUpFunctionTables W r).setUp q = s.setUp q := by
    intro q hq
    simp [TypeVm.setUpFunctionTables, hq]
  have hsupers : ∀ q j, r ∉ W.supers q →
      ((∃ p ∈ W.supers q, j ∈ (s.setUpFunctionTables W r).interfaces p) ↔
        ∃ p ∈ W.supers q, j ∈ s.interfaces p) := by
    intro q j hq
    have hne : ∀ p ∈ W.supers q, p ≠ r := fun p hp hpr => hq (hpr ▸ hp)
    constructor
    · rintro ⟨p, hp, hj⟩
      exact ⟨p, hp, by rwa [hother p (hne p hp)] at hj⟩
    · rintro ⟨p, hp, hj⟩
      exact ⟨p, hp, by rwa [hother p (hne p hp)]⟩
  constructor
  · exact h.boot
  · exact h.primitive
  · exact h.display
  · exact h.displaySuper
  · intro q hq j
    by_cases hqr : q = r
    · subst hqr
      rw [hsupers q j hself]
      have hval : (s.setUpFunctionTables W q).interfaces q =
          (W.setUpFunctionTables s.tables q).itables.map Itable.interface := by
        simp [TypeVm.setUpFunctionTables, TypeVm.interfaces]
      rw [hval]
      exact mem_setUpFunctionTables_interface
    · rw [hset q hqr] at hq
      have hrq : r ∉ W.supers q := fun hrq => by simp [hno q hrq] at hq
      rw [hother q hqr, hsupers q j hrq]
      exact h.interfaces q hq j
  · intro q hq
    have hqr : q ≠ r := by
      rintro rfl
      simp [TypeVm.setUpFunctionTables] at hq
    rw [hset q hqr] at hq
    rw [hother q hqr]
    exact h.unset q hq
  · intro q hq
    by_cases hqr : q = r
    · subst hqr
      exact hp
    · rw [hset q hqr] at hq
      exact h.supers q hq

theorem not_setUp_of_loaded (h : TypeInv W s) (hr : s.vm.state r = .loaded) :
    ∀ q, r ∈ W.supers q → s.setUp q = false := by
  intro q hq
  by_contra hset
  exact h.supers q (by simpa using hset) r hq hr

end TypeInv

/-! ### One call of `link_class` -/

/-- What a call of `link_class` on classes below `n` keeps. -/
structure LinkKeeps (W : ClassWorld) (n : ℕ) (s s' : TypeVm) : Prop where
  inv : TypeInv W s'
  frame : TypeFrame n s s'
  past : PastLoading s s'
  untouched : ∀ c, n ≤ c → s'.vm.state ⟨c, 0⟩ = s.vm.state ⟨c, 0⟩

namespace LinkKeeps

variable {n : ℕ} {s s' s'' : TypeVm}

theorem refl (h : TypeInv W s) (n : ℕ) : LinkKeeps W n s s :=
  ⟨h, fun _ _ => ⟨rfl, rfl, rfl⟩, fun _ _ h => h, fun _ _ => rfl⟩

theorem trans (h : LinkKeeps W n s s') (h' : LinkKeeps W n s' s'') :
    LinkKeeps W n s s'' :=
  ⟨h'.inv, h.frame.trans h'.frame h.past, fun r h0 hr => h'.past r h0 (h.past r h0 hr),
    fun c hc => (h'.untouched c hc).trans (h.untouched c hc)⟩

theorem mono {m : ℕ} (h : LinkKeeps W n s s') (hnm : n ≤ m) : LinkKeeps W m s s' :=
  ⟨h.inv, h.frame.mono hnm, h.past, fun c hc => h.untouched c (hnm.trans hc)⟩

theorem mapVm (h : TypeInv W s) {f : Vm → Vm}
    (hf : ∀ c, s.vm.state ⟨c, 0⟩ ≠ .loaded ∨ n ≤ c →
      (f s.vm).state ⟨c, 0⟩ = s.vm.state ⟨c, 0⟩ ∨ c < n ∧ (f s.vm).state ⟨c, 0⟩ ≠ .loaded) :
    LinkKeeps W n s (s.mapVm f) := by
  have hpast : PastLoading s (s.mapVm f) := by
    rintro ⟨c, d⟩ h0 hr
    obtain rfl : d = 0 := h0
    rcases hf c (.inl hr) with hc | hc
    · rw [TypeVm.mapVm, hc]
      exact hr
    · exact hc.2
  refine ⟨h.mapVm hpast, fun _ _ => ⟨rfl, rfl, rfl⟩, hpast, fun c hc => ?_⟩
  rcases hf c (.inr hc) with hc' | hc'
  · exact hc'
  · omega

theorem setupSuperHierarchy (h : TypeInv W s) {r : ClassRef}
    (hp : ∀ p, W.superOf r = some p → s.vm.state p ≠ .loaded)
    (hr : r.dims ≠ 0 ∨ s.vm.state r = .loaded ∧ r.base < n) :
    LinkKeeps W n s (s.setupSuperHierarchy W r) := by
  refine ⟨h.setupSuperHierarchy hp (hr.imp id And.left), ?_, fun _ _ h => h, fun _ _ => rfl⟩
  intro c hc
  have hne : (⟨c, 0⟩ : ClassRef) ≠ r := by
    rintro rfl
    rcases hr with hr | ⟨hr, hlt⟩
    · exact hr rfl
    · rcases hc with hc | hc
      · exact absurd hlt (by dsimp only; omega)
      · exact hc hr
  exact ⟨by simp [TypeVm.setupSuperHierarchy, hne], rfl, rfl⟩

theorem setUpFunctionTables (h : TypeInv W s) {r : ClassRef}
    (hp : ∀ p ∈ W.supers r, s.vm.state p ≠ .loaded)
    (hno : ∀ q, r ∈ W.supers q → s.setUp q = false) (hr : r.dims ≠ 0) :
    LinkKeeps W n s (s.setUpFunctionTables W r) := by
  refine ⟨h.setUpFunctionTables hp hno, ?_, fun _ _ h => h, fun _ _ => rfl⟩
  intro c _
  have hne : (⟨c, 0⟩ : ClassRef) ≠ r := by
    rintro rfl
    exact hr rfl
  exact ⟨rfl, by simp [TypeVm.setUpFunctionTables, hne],
    by simp [TypeVm.setUpFunctionTables, hne]⟩

theorem finish (h : LinkKeeps W n s s') {r : ClassRef} (hr : s.vm.state r = .loaded)
    (hn : r.base < n) (hp : ∀ p ∈ W.supers r, s'.vm.state p ≠ .loaded)
    (hno : ∀ q, r ∈ W.supers q → s'.setUp q = false) :
    LinkKeeps W n s (s'.setUpFunctionTables W r) := by
  refine ⟨h.inv.setUpFunctionTables hp hno, ?_, h.past, h.untouched⟩
  intro c hc
  have hne : (⟨c, 0⟩ : ClassRef) ≠ r := by
    rintro rfl
    rcases hc with hc | hc
    · exact absurd hn (by dsimp only; omega)
    · exact hc hr
  obtain ⟨h1, h2, h3⟩ := h.frame c hc
  exact ⟨h1, by simpa [TypeVm.setUpFunctionTables, hne] using h2,
    by simpa [TypeVm.setUpFunctionTables, hne] using h3⟩

theorem recordLinkageError (h : TypeInv W s) (r : ClassRef)
    (hn : r.dims = 0 → r.base < n) {f : Vm → Vm} (hf : ∀ v, (f v).state = v.state) :
    LinkKeeps W n s (s.mapVm fun v => (f v).recordLinkageError t r) := by
  apply mapVm h
  intro c _
  by_cases hc : (⟨c, 0⟩ : ClassRef) = r
  · right
    subst hc
    exact ⟨hn rfl, by simp [Vm.recordLinkageError]⟩
  · left
    simp [Vm.recordLinkageError, hc, hf]

end LinkKeeps

section Calls

variable {link : TypeVm → ClassRef → ℤ × TypeVm} {n : ℕ} {s : TypeVm} {r : ClassRef}

theorem linkTypes_keeps {ps : List ClassRef} (hdims : ∀ p ∈ ps, p.dims = 0)
    (hlink : ∀ s, TypeInv W s → ∀ p ∈ ps, LinkKeeps W n s (link s p).2 ∧
      (link s p).2.vm.state p ≠ .loaded) (h : TypeInv W s) :
    LinkKeeps W n s (linkTypes link s ps).2 ∧ ((linkTypes link s ps).1 = 0 →
      ∀ p ∈ ps, (linkTypes link s ps).2.vm.state p ≠ .loaded) := by
  induction ps generalizing s with
  | nil => exact ⟨.refl h n, by simp⟩
  | cons p ps ih =>
    obtain ⟨hk, hp⟩ := hlink s h p mem_cons_self
    unfold linkTypes
    dsimp only
    split
    · rename_i hne
      exact ⟨hk, fun h0 => absurd h0 hne⟩
    · obtain ⟨hk', hps⟩ := ih (fun q hq => hdims q (mem_cons_of_mem _ hq))
        (fun s hs q hq => hlink s hs q (mem_cons_of_mem _ hq)) hk.inv
      refine ⟨hk.trans hk', fun h0 q hq => ?_⟩
      rcases mem_cons.mp hq with rfl | hq
      · exact hk'.past q (hdims q mem_cons_self) hp
      · exact hps h0 q hq

theorem linkArrayType_keeps (hr : r.dims ≠ 0)
    (hlink : ∀ s', TypeInv W s' → s'.vm.state ⟨r.base, 0⟩ = s.vm.state ⟨r.base, 0⟩ →
      LinkKeeps W n s' (link s' ⟨r.base, 0⟩).2) (h : TypeInv W s) :
    LinkKeeps W n s (linkArrayType W link s r).2 := by
  have hset : ∀ s', LinkKeeps W n s s' →
      LinkKeeps W n s ((s'.setupSuperHierarchy W r).setUpFunctionTables W r) := by
    intro s' hs'
    have hsuper : ∀ p, W.superOf r = some p → s'.vm.state p ≠ .loaded := fun p hp =>
      hs'.inv.supers_boot hr p (superOf_mem_supers hp)
    have hd := hs'.trans (.setupSuperHierarchy hs'.inv hsuper (.inl hr))
    refine hd.trans (.setUpFunctionTables hd.inv (hd.inv.supers_boot hr) ?_ hr)
    intro q hq
    exact absurd (W.supers_dims hq) hr
  have hstate : ∀ c, (⟨c, 0⟩ : ClassRef) ≠ r := by
    rintro c rfl
    exact hr rfl
  unfold linkArrayType
  split
  · exact .refl h n
  · have hlinked : LinkKeeps W n s (s.mapVm fun v => v.setState r .linked) := by
      apply LinkKeeps.mapVm h
      intro c _
      left
      simp [Vm.setState, hstate c]
    cases hb : W.baseComponent r with
    | none => exact hset _ hlinked
    | some b =>
      obtain ⟨rfl, -⟩ := baseComponent_eq hb
      have hbase := hlinked.trans (hlink _ hlinked.inv (by
        simp [TypeVm.mapVm, Vm.setState, hstate]))
      dsimp only
      apply hset
      refine hbase.trans (.mapVm hbase.inv ?_)
      intro c _
      left
      split <;> simp [Vm.setArrayStates]

theorem linkTypeAux_of_ne_loaded {d : ℕ} (h : s.vm.state r ≠ .loaded) :
    linkTypeAux W t d s r = (0, s) := by
  cases d with
  | zero => rfl
  | succ d => simp only [linkTypeAux, if_pos h]

theorem linkTypes_of_ne_loaded (hdone : ∀ s p, s.vm.state p ≠ .loaded → link s p = (0, s))
    {ps : List ClassRef} (hps : ∀ p ∈ ps, s.vm.state p ≠ .loaded) :
    linkTypes link s ps = (0, s) := by
  induction ps with
  | nil => rfl
  | cons p ps ih =>
    simp only [linkTypes, hdone s p (hps p mem_cons_self), ne_eq, not_true_eq_false, if_false]
    exact ih fun q hq => hps q (mem_cons_of_mem _ hq)

/-- What the calls nested in `linkLoadedType` on `r` are known to do. -/
structure NestedLinks (W : ClassWorld) (link : TypeVm → ClassRef → ℤ × TypeVm)
    (r : ClassRef) : Prop where
  supers : ∀ s, TypeInv W s → ∀ p ∈ W.supers r, LinkKeeps W (p.base + 1) s (link s p).2 ∧
    (link s p).2.vm.state p ≠ .loaded
  base : r.dims ≠ 0 → ∀ s, TypeInv W s → LinkKeeps W (r.base + 1) s (link s ⟨r.base, 0⟩).2
  done : ∀ s p, s.vm.state p ≠ .loaded → link s p = (0, s)

theorem linkLoadedType_array (hl : NestedLinks W link r) (hr : r.dims ≠ 0)
    (h : TypeInv W s) : LinkKeeps W (r.base + 1) s (linkLoadedType W t link s r).2 := by
  have hnoop : ∀ ps : List ClassRef, (∀ p ∈ ps, p ∈ W.supers r) → ∀ s, TypeInv W s →
      linkTypes link s ps = (0, s) := fun ps hps s hs =>
    linkTypes_of_ne_loaded hl.done fun p hp => hs.supers_boot hr p (hps p hp)
  have hk : W.kind r ≠ .ordinary := fun hk => hr (W.dims_of_kind_ordinary hk)
  have hsuper : ∀ p ∈ (W.superOf r).toList, p ∈ W.supers r := by
    intro p hp
    exact superOf_mem_supers (Option.mem_toList.mp hp)
  have hint : ∀ p ∈ W.interfacesOf r, p ∈ W.supers r := fun p hp =>
    mem_supers.mpr (mem_itableSources.mpr (.inl hp))
  have hd : LinkKeeps W (r.base + 1) s (s.setupSuperHierarchy W r) :=
    .setupSuperHierarchy h (fun p hp => h.supers_boot hr p (superOf_mem_supers hp)) (.inl hr)
  unfold linkLoadedType
  dsimp only
  rw [hnoop _ hsuper s h, if_neg (by simp), hnoop _ hint _ hd.inv, if_neg (by simp), if_pos hk]
  exact hd.trans (linkArrayType_keeps hr (fun s hs _ => hl.base hr s hs) hd.inv)

theorem linkLoadedType_class {c : ℕ} (hl : NestedLinks W link ⟨c, 0⟩)
    (hc : s.vm.state ⟨c, 0⟩ = .loaded) (h : TypeInv W s) :
    LinkKeeps W (c + 1) s (linkLoadedType W t link s ⟨c, 0⟩).2 := by
  have hlt : ∀ p ∈ W.supers ⟨c, 0⟩, p.base + 1 ≤ c := fun p hp => W.supers_base_lt hp rfl
  have hsub : ∀ p ∈ (W.superOf ⟨c, 0⟩).toList, p ∈ W.supers ⟨c, 0⟩ := by
    intro p hp
    exact superOf_mem_supers (Option.mem_toList.mp hp)
  have hint : ∀ p ∈ W.interfacesOf ⟨c, 0⟩, p ∈ W.supers ⟨c, 0⟩ := fun p hp =>
    mem_supers.mpr (mem_itableSources.mpr (.inl hp))
  have hlinks : ∀ ps : List ClassRef, (∀ p ∈ ps, p ∈ W.supers ⟨c, 0⟩) → ∀ s, TypeInv W s →
      LinkKeeps W c s (linkTypes link s ps).2 ∧ ((linkTypes link s ps).1 = 0 →
        ∀ p ∈ ps, (linkTypes link s ps).2.vm.state p ≠ .loaded) := by
    intro ps hps s hs
    refine linkTypes_keeps (fun p hp => W.supers_dims (hps p hp)) (fun s hs p hp => ?_) hs
    obtain ⟨hk, hp'⟩ := hl.supers s hs p (hps p hp)
    exact ⟨hk.mono (hlt p (hps p hp)), hp'⟩
  have hkind : W.kind ⟨c, 0⟩ = .ordinary := by
    have hp : W.isPrimitive c = false := by
      by_contra hp
      exact h.primitive c (by simpa using hp) hc
    simp [Hierarchy.kind, hp]
  unfold linkLoadedType
  dsimp only
  obtain ⟨hk1, hp1⟩ := hlinks _ hsub s h
  generalize linkTypes link s (W.superOf ⟨c, 0⟩).toList = l1 at hk1 hp1 ⊢
  have hc1 : l1.2.vm.state ⟨c, 0⟩ = .loaded := (hk1.untouched c le_rfl).trans hc
  have hk1' := hk1.mono (Nat.le_succ c)
  split
  · exact hk1'.trans (.recordLinkageError hk1.inv _ (fun _ => Nat.lt_succ_self c) fun _ => rfl)
  · rename_i h0
    have hsuper : ∀ p, W.superOf ⟨c, 0⟩ = some p → l1.2.vm.state p ≠ .loaded := fun p hp =>
      hp1 (not_not.mp h0) p (Option.mem_toList.mpr hp)
    have hk2 := hk1'.trans
      (.setupSuperHierarchy hk1.inv hsuper (.inr ⟨hc1, Nat.lt_succ_self c⟩))
    obtain ⟨hk3, hp3⟩ := hlinks _ hint _ hk2.inv
    have hsuper3 : ∀ p, W.superOf ⟨c, 0⟩ = some p →
        (linkTypes link (l1.2.setupSuperHierarchy W ⟨c, 0⟩) (W.interfacesOf ⟨c, 0⟩)).2.vm.state p ≠
          .loaded := fun p hp => hk3.past p (superOf_dims hp) (hsuper p hp)
    generalize linkTypes link (l1.2.setupSuperHierarchy W ⟨c, 0⟩) (W.interfacesOf ⟨c, 0⟩) = l3
      at hk3 hp3 hsuper3 ⊢
    have hc3 : l3.2.vm.state ⟨c, 0⟩ = .loaded := (hk3.untouched c le_rfl).trans hc1
    have hk3' := hk2.trans (hk3.mono (Nat.le_succ c))
    split
    · exact hk3'.trans (.recordLinkageError hk3.inv _ (fun _ => Nat.lt_succ_self c) fun _ => rfl)
    · rename_i h3
      rw [if_neg (not_not.mpr hkind)]
      have hk4 : LinkKeeps W (c + 1) s (l3.2.mapVm fun v => v.setState ⟨c, 0⟩ .linked) := by
        refine hk3'.trans (.mapVm hk3.inv fun c' _ => ?_)
        by_cases hcc : c' = c
        · right
          subst hcc
          exact ⟨Nat.lt_succ_self _, by simp [Vm.setState]⟩
        · left
          simp [Vm.setState, hcc]
      have hpast4 : ∀ p ∈ W.supers ⟨c, 0⟩,
          (l3.2.mapVm fun v => v.setState ⟨c, 0⟩ .linked).vm.state p ≠ .loaded := by
        intro p hp
        have hpc : p ≠ ⟨c, 0⟩ := by
          rintro rfl
          have := hlt _ hp
          dsimp only at this
          omega
        have hp' : l3.2.vm.state p ≠ .loaded := by
          rcases mem_itableSources.mp (mem_supers.mp hp) with hi | hi
          · exact hp3 (not_not.mp h3) p hi
          · exact hsuper3 p hi
        simpa [TypeVm.mapVm, Vm.setState, hpc] using hp'
      have hk5 : LinkKeeps W (c + 1) (l3.2.mapVm fun v => v.setState ⟨c, 0⟩ .linked)
          (if (l3.2.mapVm fun v => v.setState ⟨c, 0⟩ .linked).vm.arrayDims c = 0 then
            l3.2.mapVm fun v => v.setState ⟨c, 0⟩ .linked
          else (linkArrayType W link (l3.2.mapVm fun v => v.setState ⟨c, 0⟩ .linked)
            ⟨c, 1⟩).2) := by
        split
        · exact .refl hk4.inv _
        · refine linkArrayType_keeps (by simp) (fun s' hs' hst => ?_) hk4.inv
          rw [hl.done s' ⟨c, 0⟩ (by rw [hst]; simp [TypeVm.mapVm, Vm.setState])]
          exact .refl hs' _
      generalize (if (l3.2.mapVm fun v => v.setState ⟨c, 0⟩ .linked).vm.arrayDims c = 0 then
        l3.2.mapVm fun v => v.setState ⟨c, 0⟩ .linked
        else (linkArrayType W link (l3.2.mapVm fun v => v.setState ⟨c, 0⟩ .linked)
          ⟨c, 1⟩).2) = s5 at hk5 ⊢
      split
      · refine (hk4.trans hk5).finish hc (Nat.lt_succ_self c) ?_ ?_
        · intro p hp
          exact hk5.past p (W.supers_dims hp) (hpast4 p hp)
        · -- A subtype of the class is later in the order of loading or an array class.
          intro q hq
          have hq3 := hk3.inv.not_setUp_of_loaded hc3 q hq
          by_cases hq0 : q.dims = 0
          · have hltq := W.supers_base_lt hq hq0
            obtain ⟨q, d⟩ := q
            obtain rfl : d = 0 := hq0
            rw [(hk5.frame q (.inl hltq)).2.2]
            exact hq3
          · exact absurd hc (h.supers_boot hq0 _ hq)
      · exact (hk4.trans hk5).trans (.recordLinkageError (f := fun v => v.raise t .verifyError)
          hk5.inv _ (fun _ => Nat.lt_succ_self c) fun _ => rfl)

theorem linkTypeAux_keeps (d : ℕ) (s : TypeVm) (r : ClassRef) (hd : W.linkDepth r ≤ d)
    (h : TypeInv W s) : LinkKeeps W (r.base + 1) s (linkTypeAux W t d s r).2 := by
  induction d generalizing s r with
  | zero => exact absurd (linkDepth_pos W.toHierarchy r) (by omega)
  | succ d ih =>
    have hnest : NestedLinks W (linkTypeAux W t d) r := by
      refine ⟨fun s hs p hp => ?_, fun hr s hs => ?_, fun s p hp => linkTypeAux_of_ne_loaded hp⟩
      · have hlt := linkDepth_supers_lt hp
        refine ⟨ih s p (by omega) hs, ?_⟩
        have hpos := linkDepth_pos W.toHierarchy p
        have hvm : (linkTypeAux W t d s p).2.vm = _ :=
          congrArg Prod.snd (linkTypeAux_forget (t := t) d s p)
        rw [hvm]
        exact linkClassAux_state_ne_loaded (by omega)
      · have hlt := linkDepth_base_lt (H := W.toHierarchy) hr
        exact ih s ⟨r.base, 0⟩ (by omega) hs
    unfold linkTypeAux
    split
    · exact .refl h _
    · rename_i hl
      by_cases hr : r.dims = 0
      · obtain ⟨c, k⟩ := r
        obtain rfl : k = 0 := hr
        exact linkLoadedType_class hnest (not_not.mp hl) h
      · exact linkLoadedType_array hnest hr h

end Calls

theorem linkType_inv {s : TypeVm} (r : ClassRef) (h : TypeInv W s) :
    TypeInv W (linkType W t s r).2 :=
  (linkTypeAux_keeps _ s r le_rfl h).inv

/-! ### Runs of the class machine -/

def Past (v v' : Vm) : Prop := ∀ c, v.state ⟨c, 0⟩ ≠ .loaded → v'.state ⟨c, 0⟩ ≠ .loaded

theorem Past.refl (v : Vm) : Past v v := fun _ h => h

theorem Past.ret {v v' : Vm} (h : Past v v') (rest : List Activation) (r : ClassRef)
    (res : ℤ) : Past v (v'.ret t rest r res) := h

theorem Past.setState {v : Vm} {r : ClassRef} {x : ClassState} (hx : x ≠ .loaded) :
    Past v (v.setState r x) := by
  intro c hc
  by_cases hcr : (⟨c, 0⟩ : ClassRef) = r
  · simpa [Vm.setState, hcr] using hx
  · simpa [Vm.setState, hcr] using hc

theorem Past.done (v : Vm) (rest : List Activation) (r : ClassRef) (error : Bool)
    (why : Option Failure) : Past v (v.done t rest r error why) := by
  intro c hc
  have hst : (if error then ClassState.linkageError else .initialized) ≠ .loaded := by
    split <;> simp
  by_cases hcr : (⟨c, 0⟩ : ClassRef) = r
  · simpa [Vm.done, Vm.ret, Vm.setArrayStates, hcr] using hst
  · simpa [Vm.done, Vm.ret, Vm.setArrayStates, hcr] using hc

theorem Past.initializeInterfaces {H : Hierarchy} (v : Vm) (r : ClassRef)
    (rest : List Activation) (m : Memory) (i : ℕ) :
    Past v (initializeInterfaces H v t r rest m i) := by
  unfold TraceJvm.initializeInterfaces
  split
  · exact .refl v
  · split
    · exact Past.done (v.raise t .outOfMemoryError) rest r true _
    · split
      · exact .refl v
      · exact Past.done v rest r false none

/-- `initialize_class` moves no class back to loading after it has linked its class. -/
theorem Past.enterInitializeClass {H : Hierarchy} (v : Vm) (r : ClassRef)
    (rest : List Activation) (m : Memory) :
    Past (if H.kind r ≠ .ordinaryArray ∧ v.state r ≠ .initialized ∧ v.state r ≠ .linkageError ∧
        (v.state r).rank < ClassState.linked.rank then (linkClass H t v r).2 else v)
      (enterInitializeClass H v t r rest m) := by
  unfold TraceJvm.enterInitializeClass
  by_cases hk : H.kind r = .ordinaryArray
  · simp only [hk, ne_eq, not_true_eq_false, false_and, if_false, if_true]
    exact (Past.refl v).ret rest r 0
  · by_cases hs : v.state r = .initialized ∨ v.state r = .linkageError
    · have hcond : ¬ (H.kind r ≠ .ordinaryArray ∧ v.state r ≠ .initialized ∧
          v.state r ≠ .linkageError ∧ (v.state r).rank < ClassState.linked.rank) := by
        rintro ⟨-, h1, h2, -⟩
        exact hs.elim h1 h2
      rw [if_neg hcond, if_neg hk, if_pos hs]
      exact (Past.refl v).ret rest r 0
    · rw [if_neg hk, if_neg hs]
      simp only [not_or] at hs
      have heq : (if H.kind r ≠ .ordinaryArray ∧ v.state r ≠ .initialized ∧
          v.state r ≠ .linkageError ∧ (v.state r).rank < ClassState.linked.rank then
          (linkClass H t v r).2 else v) =
          (if (v.state r).rank < ClassState.linked.rank then linkClass H t v r else (0, v)).2 := by
        by_cases hr : (v.state r).rank < ClassState.linked.rank
        · rw [if_pos ⟨hk, hs.1, hs.2, hr⟩, if_pos hr]
        · rw [if_neg (fun h => hr h.2.2.2), if_neg hr]
      rw [heq]
      generalize (if (v.state r).rank < ClassState.linked.rank then linkClass H t v r
        else (0, v)) = l
      have hinit : Past l.2 (l.2.setState r .initializing) := .setState (by simp)
      dsimp only
      split
      · exact (Past.refl l.2).ret rest r 0
      · split
        · split
          · exact (Past.refl l.2).ret rest r 0
          · exact .refl l.2
        · split
          · exact .refl l.2
          · split
            · exact hinit
            · split
              · exact hinit
              · intro c hc
                exact Past.initializeInterfaces _ r rest m 0 c (hinit c hc)

theorem linkNewArrayType_vm (s : TypeVm) (r : ClassRef) :
    (linkNewArrayType W s t r).vm = linkNewArray W.toHierarchy s.vm t r := by
  unfold linkNewArrayType linkNewArray
  dsimp only [TypeVm.freshArray]
  split
  · exact linkType_vm _ _
  · rfl

theorem TypeInv.freshArray {s : TypeVm} (h : TypeInv W s) {a : ClassRef} (ha : a.dims ≠ 0) :
    TypeInv W (s.freshArray a) := by
  have hstate : ∀ p, p.dims = 0 → (s.freshArray a).vm.state p = s.vm.state p := by
    intro p hp
    have hpa : p ≠ a := by
      rintro rfl
      exact ha hp
    simp [TypeVm.freshArray, Vm.freshArray, hpa]
  have hsuper : ∀ p, p.dims = 0 → (s.freshArray a).hierarchy p = s.hierarchy p ∧
      (s.freshArray a).interfaces p = s.interfaces p := by
    intro p hp
    have hpa : p ≠ a := by
      rintro rfl
      exact ha hp
    simp [TypeVm.freshArray, TypeVm.interfaces, hpa]
  have hdisplay : ∀ q, TypeVm.displayOf W (s.freshArray a) q = TypeVm.displayOf W s q := by
    intro q
    unfold TypeVm.displayOf
    cases hp : W.superOf q with
    | none => rfl
    | some p => simp only [(hsuper p (superOf_dims hp)).1]
  constructor
  · intro p hp
    rw [hstate _ rfl]
    exact h.boot p hp
  · intro c hc
    rw [hstate _ rfl]
    exact h.primitive c hc
  · intro q
    rw [hdisplay]
    by_cases hq : q = a
    · left
      simp [TypeVm.freshArray, hq]
    · simpa [TypeVm.freshArray, hq] using h.display q
  · intro q p hq hp
    rw [hstate p (superOf_dims hp)]
    have hqa : q ≠ a := by
      rintro rfl
      simp [TypeVm.freshArray] at hq
    exact h.displaySuper q p (by simpa [TypeVm.freshArray, hqa] using hq) hp
  · intro q hq j
    have hqa : q ≠ a := by
      rintro rfl
      simp [TypeVm.freshArray] at hq
    have hq' : s.setUp q = true := by simpa [TypeVm.freshArray, hqa] using hq
    have hi : (s.freshArray a).interfaces q = s.interfaces q := by
      simp [TypeVm.freshArray, TypeVm.interfaces, hqa]
    have hex : (∃ p ∈ W.supers q, j ∈ (s.freshArray a).interfaces p) ↔
        ∃ p ∈ W.supers q, j ∈ s.interfaces p := by
      constructor
      · rintro ⟨p, hp, hj⟩
        exact ⟨p, hp, by rwa [(hsuper p (W.supers_dims hp)).2] at hj⟩
      · rintro ⟨p, hp, hj⟩
        exact ⟨p, hp, by rwa [(hsuper p (W.supers_dims hp)).2]⟩
    rw [hi, hex]
    exact h.interfaces q hq' j
  · intro q hq
    by_cases hqa : q = a
    · simp [TypeVm.freshArray, TypeVm.interfaces, hqa, FunctionTables.empty]
    · have hi : (s.freshArray a).interfaces q = s.interfaces q := by
        simp [TypeVm.freshArray, TypeVm.interfaces, hqa]
      rw [hi]
      exact h.unset q (by simpa [TypeVm.freshArray, hqa] using hq)
  · intro q hq p hp
    have hqa : q ≠ a := by
      rintro rfl
      simp [TypeVm.freshArray] at hq
    rw [hstate p (W.supers_dims hp)]
    exact h.supers q (by simpa [TypeVm.freshArray, hqa] using hq) p hp

theorem linkingOf_inv {s : TypeVm} (h : TypeInv W s) (e : InitEvent) :
    TypeInv W (linkingOf W s e) := by
  cases e with
  | link t r => exact linkType_inv r h
  | createArray t r =>
    have hf := h.freshArray (a := r.array) (by simp [ClassRef.array])
    change TypeInv W (linkNewArrayType W s t r)
    unfold linkNewArrayType
    dsimp only
    split
    · exact linkType_inv _ hf
    · exact hf
  | poll t m =>
    simp only [linkingOf]
    split
    · split
      · exact linkType_inv _ h
      · exact h
    · exact h
  | call t r => exact h
  | catchException t => exact h
  | clinitReturns t thrown error => exact h

/-- What follows the linking in a transition moves no class back to loading. -/
theorem linkingOf_past {s : TypeVm} {e : InitEvent} {v : Vm}
    (h : initStep W.toHierarchy s.vm e = some v) : Past (linkingOf W s e).vm v := by
  cases e with
  | call t r | catchException t =>
    simp only [initStep] at h
    split at h
    · cases h
      exact .refl s.vm
    · cases h
  | link t r =>
    simp only [initStep] at h
    split at h
    · cases h
      rw [linkingOf, linkType_vm]
      exact .refl _
    · cases h
  | createArray t r =>
    simp only [initStep] at h
    split at h
    · cases h
      rw [linkingOf, linkNewArrayType_vm]
      intro c hc
      have hne : (⟨c, 0⟩ : ClassRef) ≠ r.array := by simp [ClassRef.array]
      simpa [createArrayClass, Vm.quiet, Vm.setState, hne] using hc
    · cases h
  | poll t m =>
    simp only [initStep] at h
    simp only [linkingOf]
    split at h
    · cases h
    · rename_i a rest hcalls
      obtain ⟨r, phase, result⟩ := a
      rw [hcalls]
      cases phase with
      | enter =>
        obtain rfl : enterInitializeClass W.toHierarchy s.vm t r rest m = v :=
          Option.some.inj h
        have hp := Past.enterInitializeClass (H := W.toHierarchy) (t := t) s.vm r rest m
        dsimp only
        split
        · rename_i hc
          rw [if_pos hc] at hp
          rw [linkType_vm]
          exact hp
        · rename_i hc
          rw [if_neg hc] at hp
          exact hp
      | waiting =>
        simp only [pollInitializeClass] at h
        split at h <;> cases h
        · exact .refl s.vm
        · exact .refl s.vm
      | superAwait =>
        cases result with
        | none => cases h
        | some res =>
          simp only [pollInitializeClass] at h
          split at h <;> cases h
          · exact .done s.vm rest r true _
          · exact .initializeInterfaces s.vm r rest m 0
      | interfaceAwait i =>
        cases result with
        | none => cases h
        | some res =>
          simp only [pollInitializeClass] at h
          split at h <;> cases h
          · exact .done s.vm rest r true _
          · exact .initializeInterfaces s.vm r rest m (i + 1)
      | clinit => cases result <;> cases h
  | clinitReturns t thrown error =>
    simp only [initStep] at h
    split at h
    · cases h
    · split at h
      · cases h
        unfold finishClinit
        split
        · exact fun c hc => Past.done _ _ _ _ _ c hc
        · split
          · exact fun c hc => Past.done _ _ _ _ _ c hc
          · exact fun c hc => Past.done _ _ _ _ _ c hc
      · cases h

theorem tableStep_inv {s s' : TypeVm} {e : InitEvent} (h : TypeInv W s)
    (hstep : tableStep W s e = some s') : TypeInv W s' := by
  obtain ⟨v, hv, rfl⟩ := Option.map_eq_some_iff.mp hstep
  have hinv := linkingOf_inv h e
  have hpast := linkingOf_past hv
  refine hinv.mapVm (f := fun _ => v) ?_
  rintro ⟨c, d⟩ h0 hc
  obtain rfl : d = 0 := h0
  exact hpast c hc

end TraceJvm
