import TraceJvm.VirtualDispatch

/-! Interface dispatch. The itable entries that linking merges from the supertypes of a class are
compared with the maximally-specific superinterface methods of the class. -/
namespace TraceJvm

open List

structure MethodId where
  name : String
  descriptor : String
  deriving DecidableEq

def CpMethod.id (m : CpMethod) : MethodId := ⟨m.name, m.descriptor⟩

namespace ClassWorld

variable (W : ClassWorld)

def Supertype : ClassRef → ClassRef → Prop := Relation.ReflTransGen fun c p => p ∈ W.supers c

/-- The nearest public instance method with the given name and descriptor in the superclass
chain. -/
def chainImplementation (c : ClassRef) (i : MethodId) : Option CpMethod :=
  (W.chain c).findSome? fun k =>
    (W.methodsOf k).find? fun m => m.id = i && m.isPublic && !m.isStatic && !m.isPrivate

structure InterfaceMethod (c : ClassRef) (i : MethodId) (x : CpMethod) : Prop where
  declared : x ∈ W.methods x.cls
  interface : W.isInterface x.cls
  supertype : W.Supertype c ⟨x.cls, 0⟩
  id : x.id = i
  instance_ : x.isStatic = false
  visible : x.isPrivate = false

def MaximallySpecific (c : ClassRef) (i : MethodId) (x : CpMethod) : Prop :=
  W.InterfaceMethod c i x ∧
    ∀ y, W.InterfaceMethod c i y → W.Supertype ⟨y.cls, 0⟩ ⟨x.cls, 0⟩ → y.cls = x.cls

def Ambiguous (c : ClassRef) (i : MethodId) : Prop :=
  ∃ x y, x ≠ y ∧ W.MaximallySpecific c i x ∧ W.MaximallySpecific c i y ∧
    x.isAbstract = false ∧ y.isAbstract = false

def Designates (c : ClassRef) (i : MethodId) (e : ItableMethod) : Prop :=
  match W.chainImplementation c i with
  | some x => e = .make x
  | none =>
      (∀ x, W.MaximallySpecific c i x → x.isAbstract = false →
        (∀ y, W.MaximallySpecific c i y → y.isAbstract = false → y = x) → e = .make x) ∧
      (W.Ambiguous c i → e.ambiguous = true) ∧
      ((∀ x, W.MaximallySpecific c i x → x.isAbstract = true) →
        e.invalid = true ∧ e.ambiguous = false)

/-- The entry that `itable_lookup` reads. -/
def itableEntry (c interface : ClassRef) (index : ℕ) : Option ItableMethod :=
  ((W.tables c).itables.find? fun t => t.interface = interface).bind fun t => t.methods[index]?

def itableIndex (m : CpMethod) : ℕ := (W.tables ⟨m.cls, 0⟩).itableIndex m.index

structure WellFormed : Prop where
  root : ∀ {c}, W.superOf c = none → c = ⟨W.object, 0⟩
  interfaceSuper : ∀ {c}, W.isInterface c → W.superOf ⟨c, 0⟩ = some ⟨W.object, 0⟩
  objectInterfaces : W.interfacesOf ⟨W.object, 0⟩ = []
  interfaces_ : ∀ {c p}, p ∈ W.interfacesOf c → W.isInterface p.base
  unique : ∀ {c x y}, x ∈ W.methods c → y ∈ W.methods c → x.id = y.id → x = y

/-- The entries that the scan for conflicts identifies while `c` is linked. -/
def scanned (c : ClassRef) : List ItableMethod :=
  (((W.itableSources c).flatMap fun p => (W.tables p).itables).flatMap Itable.methods).filter
    fun e => W.isInterface e.method.cls

def identifier (i : MethodId) : List Char := i.name.toList ++ ':' :: i.descriptor.toList

/-- No identifier of the list is cut off: none is longer by two than the one read before it. -/
def Uncut : ℕ → List MethodId → Prop
  | _, [] => True
  | len, i :: is =>
      (identifier i).length ≤ len + 1 ∧ Uncut (identifier i).length is

instance decidableUncut : (len : ℕ) → (is : List MethodId) → Decidable (Uncut len is)
  | _, [] => isTrue trivial
  | len, i :: is =>
      match decEq ((identifier i).length ≤ len + 1 : Bool) true,
        decidableUncut (identifier i).length is with
      | isTrue h, isTrue h' => isTrue ⟨by simpa using h, h'⟩
      | isFalse h, _ => isFalse fun hu => h (by simpa using hu.1)
      | _, isFalse h' => isFalse fun hu => h' hu.2

/-- `identify` tells apart the methods that linking compares. -/
structure PlainIdentifiers : Prop where
  scan : ∀ c, Uncut scratchSize ((W.scanned c).map fun e => e.method.id)
  merge : ∀ {c}, W.isInterface c → Uncut scratchSize ((W.itableMethods ⟨c, 0⟩).map CpMethod.id)
  colon : ∀ {c m}, W.isInterface c → m ∈ W.methods c → ':' ∉ m.name.toList
  polymorphic : ∀ {c j x m}, x ∈ W.methods c → x.isSignaturePolymorphic → W.isInterface j →
    m ∈ W.methods j → m.name ≠ x.name

/-- Classes declare the method publicly or not at all; private declarations are harmless unless
they hide a public one, and interfaces have none. -/
structure PlainDeclarations (i : MethodId) : Prop where
  initializer : i.name ≠ "<init>" ∧ i.name ≠ "<clinit>"
  nearest : ∀ {c r}, W.methodLookup c i.name i.descriptor = some r →
    r.isPublic = true ∧ r.isStatic = false ∧ r.isPrivate = false ∨
      ∀ k ∈ W.chain c, ∀ m ∈ W.methodsOf k, m.id = i → m.isPrivate = true
  interface : ∀ {c m}, W.isInterface c → m ∈ W.methods c → m.id = i → m.isPrivate = false

/-- A class without an implementation of its own inherits one and the same maximally-specific
method from all its supertypes, unless it has several that are not abstract. -/
def Unconflicted (i : MethodId) : Prop :=
  ∀ c, W.chainImplementation c i = none →
    (∃ x, ∀ p ∈ W.supers c, ∀ y, W.MaximallySpecific p i y → y = x) ∨ W.Ambiguous c i

variable {W}

/-! ### Superclass chains and lookups -/

variable {r : ClassRef}

theorem chainAux_eq {d d' : ℕ} (hr : r.dims = 0) (hd : r.base ≤ d)
    (hd' : r.base ≤ d') : W.chainAux d r = W.chainAux d' r := by
  induction d generalizing d' r with
  | zero =>
    have hnone : W.superOf r = none := by
      cases hp : W.superOf r with
      | none => rfl
      | some p =>
        have hlt := W.supers_base_lt (superOf_mem_supers hp) hr
        omega
    cases d' with
    | zero => rfl
    | succ d' => simp [chainAux, hnone]
  | succ d ih =>
    cases hp : W.superOf r with
    | none => cases d' <;> simp [chainAux, hp]
    | some p =>
      have hlt := W.supers_base_lt (superOf_mem_supers hp) hr
      obtain ⟨d', rfl⟩ : ∃ e, d' = e + 1 := ⟨d' - 1, by omega⟩
      simp only [chainAux, hp]
      rw [ih (superOf_dims hp) (by omega) (show p.base ≤ d' by omega)]

theorem chain_eq (r : ClassRef) :
    W.chain r = r :: match W.superOf r with
      | none => []
      | some p => W.chain p := by
  obtain ⟨c, d⟩ := r
  cases d with
  | succ d =>
    have hp : W.superOf ⟨c, d + 1⟩ = some ⟨W.object, 0⟩ := by simp [superOf]
    simp [chain, chainAux, hp]
  | zero =>
    cases hp : W.superOf ⟨c, 0⟩ with
    | none => cases c <;> simp [chain, chainAux, hp]
    | some p =>
      have hlt : p.base < c := W.supers_base_lt (superOf_mem_supers hp) rfl
      have h0 := superOf_dims hp
      cases c with
      | zero => omega
      | succ c =>
        simp only [chain, chainAux, hp, if_true, h0]
        rw [chainAux_eq h0 (show p.base ≤ c by omega) le_rfl]

variable {c k : ClassRef}

theorem mem_chain : k ∈ W.chain c ↔ W.Subclass c k := by
  constructor
  · intro h
    induction c using supers_induction (W := W) with
    | _ c ih =>
      rw [chain_eq, mem_cons] at h
      rcases h with rfl | h
      · exact .refl
      · cases hp : W.superOf c with
        | none => simp [hp] at h
        | some p =>
          rw [hp] at h
          exact .head hp (ih p (superOf_mem_supers hp) h)
  · intro h
    induction h using Relation.ReflTransGen.head_induction_on with
    | refl => rw [chain_eq]; exact mem_cons_self
    | head hp _ ih => rw [chain_eq, hp]; exact mem_cons_of_mem _ ih

theorem methodLookup_eq (c : ClassRef) (name descriptor : String) :
    W.methodLookup c name descriptor =
      (W.chain c).findSome? fun k => W.declared k name descriptor := by
  unfold methodLookup
  dsimp only
  split
  · rfl
  · rename_i h0
    have hp : W.superOf c = some ⟨W.object, 0⟩ := by simp [superOf, h0]
    have hd : W.declared c name descriptor = none := by simp [declared, methodsOf, h0]
    rw [chain_eq c, hp, findSome?_cons, hd]

variable {i : MethodId} {c : ClassRef}

theorem chainImplementation_eq_none :
    W.chainImplementation c i = none ↔ ∀ k, W.Subclass c k → ∀ m ∈ W.methodsOf k, m.id = i →
      m.isPublic = true → m.isStatic = false → m.isPrivate = true := by
  unfold chainImplementation
  rw [findSome?_eq_none_iff]
  constructor
  · intro h k hk m hm hid hpub hst
    have := find?_eq_none.mp (h k (mem_chain.mpr hk)) m hm
    simpa [hid, hpub, hst] using this
  · intro h k hk
    rw [find?_eq_none]
    intro m hm hc
    simp only [Bool.and_eq_true, decide_eq_true_eq, Bool.not_eq_true'] at hc
    obtain ⟨⟨⟨hid, hpub⟩, hst⟩, hpr⟩ := hc
    have := h k (mem_chain.mp hk) m hm hid hpub hst
    simp [hpr] at this

theorem chainImplementation_spec {r : CpMethod} (h : W.chainImplementation c i = some r) :
    ∃ k, W.Subclass c k ∧ r ∈ W.methodsOf k ∧ r.id = i ∧ r.isPublic = true ∧
      r.isStatic = false ∧ r.isPrivate = false := by
  obtain ⟨k, hk, hr⟩ := exists_of_findSome?_eq_some h
  have hp := find?_some hr
  simp only [Bool.and_eq_true, decide_eq_true_eq, Bool.not_eq_true'] at hp
  obtain ⟨⟨⟨hid, hpub⟩, hst⟩, hpr⟩ := hp
  exact ⟨k, mem_chain.mp hk, mem_of_find?_eq_some hr, hid, hpub, hst, hpr⟩

variable {α : Type*} {p q : α → Bool} {l : List α}

theorem find?_eq_find? (h : ∀ x ∈ l, p x = q x) : l.find? p = l.find? q := by
  induction l with
  | nil => rfl
  | cons x l ih =>
    rw [find?_cons, find?_cons, h x (by simp), ih fun y hy => h y (by simp [hy])]

section Lookup

variable {i : MethodId}

def InterfaceId (W : ClassWorld) (i : MethodId) : Prop :=
  ∃ j m, W.isInterface j ∧ m ∈ W.methods j ∧ m.id = i

variable (hI : W.PlainIdentifiers) (hi : W.InterfaceId i)

include hI hi in
theorem declared_eq (k : ClassRef) :
    W.declared k i.name i.descriptor = (W.methodsOf k).find? fun m => m.id = i := by
  unfold declared
  apply find?_eq_find?
  intro m hm
  obtain ⟨j, y, hj, hy, rfl⟩ := hi
  have hmem : m ∈ W.methods m.cls := by
    rw [methodsOf_cls hm] at hm
    simpa [methodsOf] using hm
  have hpoly : m.name = y.name → m.isSignaturePolymorphic = false := by
    intro hname
    by_contra hp
    exact hI.polymorphic hmem (by simpa using hp) hj hy hname.symm
  by_cases hname : m.name = y.name
  · simp [CpMethod.candidateMatches, CpMethod.id, hname, hpoly hname]
  · simp [CpMethod.candidateMatches, CpMethod.id, hname]

variable {a : α}

theorem find?_and (h : l.find? p = some a) (ha : q a) : l.find? (fun x => p x && q x) = some a := by
  induction l with
  | nil => cases h
  | cons x l ih =>
    by_cases hx : p x
    · obtain rfl : x = a := by simpa [find?_cons, hx] using h
      simp [hx, ha]
    · rw [find?_cons_of_neg hx] at h
      rw [find?_cons_of_neg (by simp [hx])]
      exact ih h

theorem findSome?_find? {β : Type*} {f : β → List α} {l : List β}
    (h : (l.findSome? fun k => (f k).find? p) = some a) (ha : q a) :
    (l.findSome? fun k => (f k).find? fun x => p x && q x) = some a := by
  induction l with
  | nil => cases h
  | cons k l ih =>
    rw [findSome?_cons] at h ⊢
    cases hk : (f k).find? p with
    | some b =>
      rw [hk] at h
      cases h
      rw [find?_and hk ha]
    | none =>
      rw [hk] at h
      have hnone : ((f k).find? fun x => p x && q x) = none := by
        rw [find?_eq_none] at hk ⊢
        intro x hx
        simp [hk x hx]
      rw [hnone]
      exact ih h

include hI hi in
/-- `method_lookup` finds the implementation of the chain, or nothing but private methods. -/
theorem methodLookup_cases (hD : W.PlainDeclarations i) (c : ClassRef) :
    (∃ r, W.methodLookup c i.name i.descriptor = some r ∧ r.id = i ∧ r.isPublic = true ∧
      r.isPrivate = false ∧ W.chainImplementation c i = some r) ∨
    W.chainImplementation c i = none ∧
      ∀ r, W.methodLookup c i.name i.descriptor = some r → r.isPrivate = true := by
  have heq : W.methodLookup c i.name i.descriptor =
      (W.chain c).findSome? fun k => (W.methodsOf k).find? fun m => m.id = i := by
    rw [methodLookup_eq]
    congr 1
    funext k
    exact declared_eq hI hi k
  cases hl : W.methodLookup c i.name i.descriptor with
  | none =>
    right
    refine ⟨?_, by simp⟩
    rw [heq, findSome?_eq_none_iff] at hl
    rw [chainImplementation_eq_none]
    intro k hk m hm hid
    have := find?_eq_none.mp (hl k (mem_chain.mpr hk)) m hm
    simp [hid] at this
  | some r =>
    have hr := hl
    rw [heq] at hr
    obtain ⟨k, hk, hfind⟩ := exists_of_findSome?_eq_some hr
    have hid : r.id = i := by simpa using find?_some hfind
    rcases hD.nearest hl with ⟨hpub, hst, hpr⟩ | hall
    · left
      refine ⟨r, rfl, hid, hpub, hpr, ?_⟩
      have := findSome?_find? (q := fun m => m.isPublic && !m.isStatic && !m.isPrivate) hr
        (by simp [hpub, hst, hpr])
      simpa only [chainImplementation, Bool.and_assoc] using this
    · right
      refine ⟨?_, ?_⟩
      · rw [chainImplementation_eq_none]
        intro k hk m hm hid _ _
        exact hall k (mem_chain.mpr hk) m hm hid
      · intro r' hr'
        cases hr'
        exact hall k hk _ (mem_of_find?_eq_some hfind) hid

include hI hi in
/-- An entry of the merged table: the implementation of the chain if there is one, and otherwise
the choice between the two entries. -/
theorem mergeEntry_eq (hD : W.PlainDeclarations i) {b : Bool}
    {d s : ItableMethod} (hd : d.method.id = i) :
    W.mergeEntry c b d s =
      match W.chainImplementation c i with
      | some r => .make r
      | none =>
          let result := if d.method.isAbstract ∨ d = s then s else d
          if b then result.markAmbiguous else result := by
  subst hd
  unfold mergeEntry
  dsimp only [CpMethod.id]
  rcases methodLookup_cases hI hi hD c with ⟨r, hl, -, hpub, hpr, hc⟩ | ⟨hc, hl⟩
  · rw [show W.methodLookup c d.method.name d.method.descriptor = some r from hl]
    rw [show W.chainImplementation c ⟨d.method.name, d.method.descriptor⟩ = some r from hc]
    simp [methodOverrides, hpr, hpub]
  · rw [show W.chainImplementation c ⟨d.method.name, d.method.descriptor⟩ = none from hc]
    cases hm : W.methodLookup c d.method.name d.method.descriptor with
    | none => rfl
    | some r => simp [methodOverrides, hl r hm]

end Lookup

/-! ### Maximally-specific methods -/

variable {p : ClassRef}

theorem Supertype.base_le (h : W.Supertype c p) (hc : c.dims = 0) :
    p.base ≤ c.base ∧ p.dims = 0 := by
  induction h with
  | refl => exact ⟨le_rfl, hc⟩
  | tail _ hp ih =>
    have hlt := W.supers_base_lt hp ih.2
    exact ⟨by omega, W.supers_dims hp⟩

theorem Supertype.base_lt_span (h : W.Supertype c p) : p.base < W.span c := by
  rcases Relation.ReflTransGen.cases_head h with rfl | ⟨q, hq, h⟩
  · unfold Hierarchy.span
    split <;> omega
  · have hlt := W.supers_base_lt_span hq
    have hle := (Supertype.base_le h (W.supers_dims hq)).1
    omega

theorem Supertype.antisymm {x y : ℕ} (h : W.Supertype ⟨x, 0⟩ ⟨y, 0⟩)
    (h' : W.Supertype ⟨y, 0⟩ ⟨x, 0⟩) : x = y :=
  le_antisymm (h'.base_le rfl).1 (h.base_le rfl).1

section Specific

variable {i : MethodId} {c : ClassRef} {y : CpMethod} {p : ClassRef}

theorem InterfaceMethod.of_super (hp : p ∈ W.supers c)
    (h : W.InterfaceMethod p i y) : W.InterfaceMethod c i y :=
  { h with supertype := .head hp h.supertype }

theorem InterfaceMethod.isVirtual (h : W.InterfaceMethod c i y)
    (hD : W.PlainDeclarations i) : y.isVirtual := by
  have hn : y.name ≠ "<init>" ∧ y.name ≠ "<clinit>" := by
    have hi := hD.initializer
    rwa [← h.id] at hi
  simp [CpMethod.isVirtual, CpMethod.isCtor, CpMethod.isClinit, hn.1, hn.2, h.instance_]

theorem InterfaceMethod.exists_maximallySpecific (h : W.InterfaceMethod c i y) :
    ∃ x, W.MaximallySpecific c i x := by
  obtain ⟨n, hn⟩ : ∃ n, n = W.span c - y.cls := ⟨_, rfl⟩
  induction n using Nat.strong_induction_on generalizing y with
  | _ n ih =>
    by_cases hmax : ∀ z, W.InterfaceMethod c i z → W.Supertype ⟨z.cls, 0⟩ ⟨y.cls, 0⟩ →
        z.cls = y.cls
    · exact ⟨y, h, hmax⟩
    · push Not at hmax
      obtain ⟨z, hz, hsub, hne⟩ := hmax
      have hle : y.cls ≤ z.cls := (hsub.base_le rfl).1
      have hlt : z.cls < W.span c := hz.supertype.base_lt_span
      exact ih (W.span c - z.cls) (by omega) hz rfl

theorem MaximallySpecific.of_super
    (h : W.MaximallySpecific c i y) (hp : p ∈ W.supers c) (hy : W.InterfaceMethod p i y) :
    W.MaximallySpecific p i y :=
  ⟨hy, fun z hz hsub => h.2 z (hz.of_super hp) hsub⟩

variable {x : CpMethod}

theorem maximallySpecific_declared (hW : W.WellFormed) (hx : x ∈ W.methods x.cls)
    (hint : W.isInterface x.cls) (hst : x.isStatic = false) (hpr : x.isPrivate = false) :
    W.MaximallySpecific ⟨x.cls, 0⟩ x.id y ↔ y = x := by
  have hself : W.InterfaceMethod ⟨x.cls, 0⟩ x.id x := ⟨hx, hint, .refl, rfl, hst, hpr⟩
  constructor
  · intro h
    have hcls := h.2 x hself h.1.supertype
    apply hW.unique (c := x.cls) _ hx h.1.id
    rw [hcls]
    exact h.1.declared
  · rintro rfl
    refine ⟨hself, fun z hz hsub => ?_⟩
    exact Supertype.antisymm hsub hz.supertype

variable (hW : W.WellFormed) (hD : W.PlainDeclarations i) (hI : W.PlainIdentifiers)

include hW hD hI in
/-- An interface that declares the method implements it. -/
theorem chainImplementation_declared (hy : y ∈ W.methods y.cls)
    (hint : W.isInterface y.cls) (hid : y.id = i) :
    W.chainImplementation ⟨y.cls, 0⟩ i = some y := by
  have hi : W.InterfaceId i := ⟨y.cls, y, hint, hy, hid⟩
  have hmem : y ∈ W.methodsOf ⟨y.cls, 0⟩ := by simpa [methodsOf] using hy
  have hfind : ((W.methodsOf ⟨y.cls, 0⟩).find? fun m => m.id = i) = some y := by
    cases hf : (W.methodsOf ⟨y.cls, 0⟩).find? fun m => m.id = i with
    | none => simpa [hid] using find?_eq_none.mp hf y hmem
    | some r =>
      have hr : r ∈ W.methods y.cls := by
        simpa [methodsOf] using mem_of_find?_eq_some hf
      have hri : r.id = i := by simpa using find?_some hf
      rw [hW.unique hr hy (hri.trans hid.symm)]
  have hlook : W.methodLookup ⟨y.cls, 0⟩ i.name i.descriptor = some y := by
    rw [methodLookup_eq, chain_eq, findSome?_cons, declared_eq hI hi, hfind]
  rcases methodLookup_cases hI hi hD ⟨y.cls, 0⟩ with ⟨r, hl, -, -, -, hr⟩ | ⟨-, hl⟩
  · cases hlook.symm.trans hl
    exact hr
  · have hpr := hD.interface hint hy hid
    simp [hl y hlook] at hpr

include hW hD hI in
theorem InterfaceMethod.exists_super (hc : W.chainImplementation c i = none)
    (h : W.InterfaceMethod c i y) : ∃ p ∈ W.supers c, W.InterfaceMethod p i y := by
  rcases Relation.ReflTransGen.cases_head h.supertype with rfl | ⟨p, hp, hsub⟩
  · have hy := chainImplementation_declared hW hD hI h.declared h.interface h.id
    simp [hc] at hy
  · exact ⟨p, hp, { h with supertype := hsub }⟩

include hW hD hI in
theorem maximallySpecific_of_supers (hc : W.chainImplementation c i = none)
    (hx : ∀ p ∈ W.supers c, ∀ y, W.MaximallySpecific p i y → y = x)
    (hy : W.MaximallySpecific c i y) : y = x := by
  obtain ⟨p, hp, hyp⟩ := hy.1.exists_super hW hD hI hc
  exact hx p hp y (hy.of_super hp hyp)

end Specific

/-! ### The scan for conflicting methods -/

theorem identifier_injective {i j : MethodId} (hi : ':' ∉ i.name.toList) (hj : ':' ∉ j.name.toList)
    (h : identifier i = identifier j) : i = j := by
  have hsplit : ∀ {a b c d : List Char}, ':' ∉ a → ':' ∉ b → a ++ ':' :: c = b ++ ':' :: d →
      a = b ∧ c = d := by
    intro a
    induction a with
    | nil =>
      intro b c d _ hb h
      cases b with
      | nil => simpa using h
      | cons x b => simp_all
    | cons x a ih =>
      intro b c d ha hb h
      cases b with
      | nil => simp_all
      | cons y b =>
        simp only [mem_cons, not_or] at ha hb
        simp only [cons_append, cons.injEq] at h
        obtain ⟨rfl, rfl⟩ := ih ha.2 hb.2 h.2
        exact ⟨by rw [h.1], rfl⟩
  obtain ⟨hn, hd⟩ := hsplit hi hj h
  obtain ⟨n, d⟩ := i
  obtain ⟨n', d'⟩ := j
  simp only [String.toList_inj] at hn hd
  rw [hn, hd]

variable {len : ℕ} {m : CpMethod}

theorem identify_eq (h : (identifier m.id).length ≤ len + 1) :
    identify len m = (identifier m.id, (identifier m.id).length) := by
  have hlen : m.name.toList.length + m.descriptor.toList.length ≤ len := by
    simp only [identifier, CpMethod.id, length_append, length_cons] at h
    omega
  have hname : m.name.toList.take len = m.name.toList := take_of_length_le (by omega)
  have hdesc : m.descriptor.toList.take (len - m.name.toList.length) = m.descriptor.toList :=
    take_of_length_le (by omega)
  simp only [identify, hname, hdesc]
  rfl

/-- Two entries of a list disagree about a method, or one of them is ambiguous already. -/
def Conflict (l : List ItableMethod) (i : MethodId) : Prop :=
  (∃ e ∈ l, e.method.id = i ∧ e.ambiguous = true) ∨
    ∃ e ∈ l, ∃ e' ∈ l, e.method.id = i ∧ e'.method.id = i ∧ e.method ≠ e'.method

/-- What the two hash tables of the scan say about the entries visited so far. -/
structure Scanned (st : ConflictScan) (l : List ItableMethod) (i : MethodId) : Prop where
  absent : st.discovered.lookup (identifier i) = none →
    ∀ e ∈ l, e.method.id = i → e.ambiguous = true
  found : ∀ x, st.discovered.lookup (identifier i) = some x →
    (∃ e ∈ l, e.method.id = i ∧ e.method = x) ∧
      ∀ e ∈ l, e.method.id = i → e.method ≠ x → identifier i ∈ st.ambiguous
  flagged : ∀ e ∈ l, e.method.id = i → e.ambiguous = true → identifier i ∈ st.ambiguous
  sound : identifier i ∈ st.ambiguous → Conflict l i

variable {l : List ItableMethod}

theorem Conflict.append (h : Conflict l i) (e : ItableMethod) : Conflict (l ++ [e]) i := by
  rcases h with ⟨x, hx, h⟩ | ⟨x, hx, y, hy, h⟩
  · exact .inl ⟨x, by simp [hx], h⟩
  · exact .inr ⟨x, by simp [hx], y, by simp [hy], h⟩

variable {st : ConflictScan} {e : ItableMethod}

/-- An entry for another method changes nothing that is said about `i`. -/
theorem Scanned.other {st' : ConflictScan} (h : Scanned st l i) (hne : e.method.id ≠ i)
    (hd : st'.discovered.lookup (identifier i) = st.discovered.lookup (identifier i))
    (ha : identifier i ∈ st'.ambiguous ↔ identifier i ∈ st.ambiguous) :
    Scanned st' (l ++ [e]) i := by
  have hmem : ∀ x ∈ l ++ [e], x.method.id = i → x ∈ l := by
    intro x hx hxi
    rcases mem_append.mp hx with hx | hx
    · exact hx
    · rw [mem_singleton] at hx
      exact absurd (hx ▸ hxi) hne
  constructor
  · intro h0 x hx hxi
    exact h.absent (hd ▸ h0) x (hmem x hx hxi) hxi
  · intro y hy
    rw [hd] at hy
    obtain ⟨⟨z, hz, hzi, hzy⟩, hall⟩ := h.found y hy
    refine ⟨⟨z, by simp [hz], hzi, hzy⟩, fun x hx hxi hxy => ?_⟩
    exact ha.mpr (hall x (hmem x hx hxi) hxi hxy)
  · intro x hx hxi hamb
    exact ha.mpr (h.flagged x (hmem x hx hxi) hxi hamb)
  · intro hm
    exact (h.sound (ha.mp hm)).append e

theorem Scanned.visit (h : Scanned st l i) (hint : W.isInterface e.method.cls)
    (hcut : (identifier e.method.id).length ≤ st.len + 1) (hi : ':' ∉ i.name.toList)
    (he : ':' ∉ e.method.name.toList) : Scanned (ConflictScan.visit W st e) (l ++ [e]) i := by
  unfold ConflictScan.visit
  simp only [hint, Bool.not_true, Bool.false_eq_true, if_false, identify_eq hcut]
  by_cases hei : e.method.id = i
  · subst hei
    have hlast : e ∈ l ++ [e] := by simp
    have hl : ∀ {x}, x ∈ l → x ∈ l ++ [e] := by
      intro x hx
      simp [hx]
    cases hlook : st.discovered.lookup (identifier e.method.id) with
    | some x =>
      obtain ⟨⟨z, hz, hzi, hzx⟩, hall⟩ := h.found x hlook
      dsimp only
      split
      · rename_i hc
        constructor
        · intro h0
          simp [hlook] at h0
        · intro y hy
          cases hlook.symm.trans hy
          exact ⟨⟨z, hl hz, hzi, hzx⟩, fun _ _ _ _ => mem_cons_self⟩
        · intro _ _ _ _
          exact mem_cons_self
        · intro _
          rcases hc with hc | hc
          · exact .inr ⟨z, hl hz, e, hlast, hzi, rfl, hzx ▸ hc⟩
          · exact .inl ⟨e, hlast, rfl, hc⟩
      · rename_i hc
        simp only [not_or, not_not] at hc
        constructor
        · intro h0
          simp [hlook] at h0
        · intro y hy
          cases hlook.symm.trans hy
          refine ⟨⟨z, hl hz, hzi, hzx⟩, fun w hw hwi hwx => ?_⟩
          rcases mem_append.mp hw with hw | hw
          · exact hall w hw hwi hwx
          · rw [mem_singleton] at hw
            exact absurd (hw ▸ hc.1.symm) hwx
        · intro w hw hwi hamb
          rcases mem_append.mp hw with hw | hw
          · exact h.flagged w hw hwi hamb
          · rw [mem_singleton] at hw
            exact absurd (hw ▸ hamb) hc.2
        · intro hm
          exact (h.sound hm).append e
    | none =>
      have hall := h.absent hlook
      dsimp only
      split
      · rename_i hc
        constructor
        · intro _ w hw hwi
          rcases mem_append.mp hw with hw | hw
          · exact hall w hw hwi
          · rw [mem_singleton] at hw
            exact hw ▸ hc
        · intro y hy
          simp [hlook] at hy
        · intro _ _ _ _
          exact mem_cons_self
        · intro _
          exact .inl ⟨e, hlast, rfl, hc⟩
      · rename_i hc
        constructor
        · intro h0
          simp at h0
        · intro y hy
          obtain rfl : e.method = y := by simpa using hy
          refine ⟨⟨e, hlast, rfl, rfl⟩, fun w hw hwi hwx => ?_⟩
          rcases mem_append.mp hw with hw | hw
          · exact h.flagged w hw hwi (hall w hw hwi)
          · rw [mem_singleton] at hw
            exact absurd (hw ▸ rfl) hwx
        · intro w hw hwi hamb
          rcases mem_append.mp hw with hw | hw
          · exact h.flagged w hw hwi hamb
          · rw [mem_singleton] at hw
            exact absurd (hw ▸ hamb) hc
        · intro hm
          exact (h.sound hm).append e
  · have hkey : identifier i ≠ identifier e.method.id := by
      intro hk
      exact hei (identifier_injective he hi hk.symm)
    apply h.other hei
    · split
      · split <;> rfl
      · split
        · rfl
        · rw [lookup_cons, beq_eq_false_iff_ne.mpr hkey]
    · split
      · split
        · simp [hkey]
        · rfl
      · split
        · simp [hkey]
        · rfl

theorem Scanned.foldl {l l' : List ItableMethod}
    (h : Scanned st l i) (hint : ∀ e ∈ l', W.isInterface e.method.cls = true)
    (hcut : Uncut st.len (l'.map fun e => e.method.id)) (hi : ':' ∉ i.name.toList)
    (hcolon : ∀ e ∈ l', ':' ∉ e.method.name.toList) :
    Scanned (l'.foldl (ConflictScan.visit W) st) (l ++ l') i := by
  induction l' generalizing st l with
  | nil => simpa using h
  | cons e l' ih =>
    obtain ⟨hlen, hcut⟩ := hcut
    have hst := h.visit (hint e (by simp)) hlen hi (hcolon e (by simp))
    have hnext : (ConflictScan.visit W st e).len = (identifier e.method.id).length := by
      unfold ConflictScan.visit
      simp only [hint e (by simp), Bool.not_true, Bool.false_eq_true, if_false, identify_eq hlen]
      split
      · split <;> rfl
      · split <;> rfl
    have := ih hst (fun x hx => hint x (by simp [hx])) (by rw [hnext]; exact hcut)
      fun x hx => hcolon x (by simp [hx])
    simpa using this

/-- The poisoned identifiers are those of the methods that the scanned entries disagree about. -/
theorem mem_ambiguous_iff (hint : ∀ e ∈ l, W.isInterface e.method.cls = true)
    (hcut : Uncut scratchSize (l.map fun e => e.method.id)) (hi : ':' ∉ i.name.toList)
    (hcolon : ∀ e ∈ l, ':' ∉ e.method.name.toList) :
    identifier i ∈ (l.foldl (ConflictScan.visit W) .start).ambiguous ↔ Conflict l i := by
  have hstart : Scanned .start [] i := by
    constructor <;> simp [ConflictScan.start]
  have h := hstart.foldl hint hcut hi hcolon
  rw [nil_append] at h
  refine ⟨h.sound, ?_⟩
  rintro (⟨e, he, hid, hamb⟩ | ⟨e, he, e', he', hid, hid', hne⟩)
  · exact h.flagged e he hid hamb
  · cases hl : (l.foldl (ConflictScan.visit W) .start).discovered.lookup (identifier i) with
    | none => exact h.flagged e he hid (h.absent hl e he hid)
    | some x =>
      by_cases hx : e.method = x
      · exact (h.found x hl).2 e' he' hid' (hx ▸ hne.symm)
      · exact (h.found x hl).2 e he hid hx

/-! ### Merging itables -/

theorem mem_methods_of_mem_methodsOf (h : m ∈ W.methodsOf k) :
    m ∈ W.methods m.cls := by
  rw [methodsOf_cls h] at h
  simpa [methodsOf] using h

variable {d s : ItableMethod}

/-- A merged entry stands for the same method as the entries that it comes from. -/
theorem mergeEntry_method (hI : W.PlainIdentifiers) {b : Bool} (hi : W.InterfaceId d.method.id)
    (hs : s.method.id = d.method.id)
    (hd : d.method ∈ W.methods d.method.cls) (hs' : s.method ∈ W.methods s.method.cls) :
    (W.mergeEntry c b d s).method.id = d.method.id ∧
      (W.mergeEntry c b d s).method ∈ W.methods (W.mergeEntry c b d s).method.cls := by
  have hresult : ∀ e : ItableMethod, e = d ∨ e = s → e.method.id = d.method.id ∧
      e.method ∈ W.methods e.method.cls := by
    rintro e (rfl | rfl)
    · exact ⟨rfl, hd⟩
    · exact ⟨hs, hs'⟩
  have hplain : ((if b then (if d.method.isAbstract = true ∨ d = s then s else d).markAmbiguous
        else if d.method.isAbstract = true ∨ d = s then s else d) : ItableMethod).method.id =
        d.method.id ∧
      ((if b then (if d.method.isAbstract = true ∨ d = s then s else d).markAmbiguous
        else if d.method.isAbstract = true ∨ d = s then s else d) : ItableMethod).method ∈
        W.methods ((if b then (if d.method.isAbstract = true ∨ d = s then s else d).markAmbiguous
        else if d.method.isAbstract = true ∨ d = s then s else d) : ItableMethod).method.cls := by
    have h := hresult (if d.method.isAbstract = true ∨ d = s then s else d)
      (by split <;> simp)
    cases b <;> exact h
  unfold mergeEntry
  dsimp only
  cases hl : W.methodLookup c d.method.name d.method.descriptor with
  | none => exact hplain
  | some m =>
    dsimp only
    split
    · rw [methodLookup_eq] at hl
      obtain ⟨k, -, hk⟩ := exists_of_findSome?_eq_some hl
      rw [show W.declared k d.method.name d.method.descriptor =
        (W.methodsOf k).find? fun m => m.id = d.method.id from declared_eq hI hi k] at hk
      have hid : m.id = d.method.id := by simpa using find?_some hk
      exact ⟨hid, mem_methods_of_mem_methodsOf (mem_of_find?_eq_some hk)⟩
    · exact hplain

variable {poisoned : List (List Char)}

/-- Every merged entry comes from the two entries at its position. -/
theorem mergeMethods_spec {ids : List MethodId} {ds ss : List ItableMethod} (hcut : Uncut len ids)
    (hds : ds.map (fun e => e.method.id) = ids) (hss : ss.map (fun e => e.method.id) = ids)
    (hid : ∀ d ∈ ds, ∀ s ∈ ss, s.method.id = d.method.id →
      ∀ b, (W.mergeEntry c b d s).method.id = d.method.id) :
    (W.mergeMethods c poisoned len ds ss).map (fun e => e.method.id) = ids ∧
      ∀ e ∈ W.mergeMethods c poisoned len ds ss, ∃ d s, (d, s) ∈ ds.zip ss ∧
        s.method.id = d.method.id ∧
        e = W.mergeEntry c (poisoned.contains (identifier d.method.id)) d s := by
  induction ds generalizing ss ids len with
  | nil =>
    subst hds
    obtain rfl : ss = [] := by simpa using hss
    simp [mergeMethods]
  | cons d ds ih =>
    subst hds
    cases ss with
    | nil => simp at hss
    | cons s ss =>
      simp only [map_cons, cons.injEq] at hss
      obtain ⟨hlen, hcut⟩ := hcut
      obtain ⟨hmap, hmem⟩ := ih hcut rfl hss.2 fun d' hd' s' hs' => hid d' (by simp [hd']) s'
        (by simp [hs'])
      simp only [mergeMethods, identify_eq hlen]
      refine ⟨by rw [map_cons, hmap, hid d (by simp) s (by simp) hss.1]; simp, ?_⟩
      intro e he
      rcases mem_cons.mp he with rfl | he
      · exact ⟨d, s, by simp, hss.1, rfl⟩
      · obtain ⟨d', s', hz, h⟩ := hmem e he
        exact ⟨d', s', by simp [hz], h⟩

/-- The itable of `c` for an interface: its entries stand for the methods of the interface, and
those for the method `i` satisfy `Q`. -/
structure GoodItable (W : ClassWorld) (i : MethodId) (Q : ItableMethod → Prop)
    (c : ClassRef) (t : Itable) : Prop where
  interface : W.interfaceFlag t.interface = true
  supertype : W.Supertype c t.interface
  ids : t.methods.map (fun e => e.method.id) = (W.itableMethods t.interface).map CpMethod.id
  declared : ∀ e ∈ t.methods, e.method ∈ W.methods e.method.cls
  entries : ∀ e ∈ t.methods, e.method.id = i → Q e

theorem interfaceFlag_dims (h : W.interfaceFlag r) : r = ⟨r.base, 0⟩ := by
  obtain ⟨b, d⟩ := r
  simp only [interfaceFlag, Bool.and_eq_true, decide_eq_true_eq] at h
  rw [h.1]

theorem interfaceFlag_isInterface (h : W.interfaceFlag r) : W.isInterface r.base := by
  simp only [interfaceFlag, Bool.and_eq_true] at h
  exact h.2

variable {t : Itable} {Q : ItableMethod → Prop}

theorem GoodItable.interfaceId (h : GoodItable W i Q c t) (he : e ∈ t.methods) :
    W.InterfaceId e.method.id := by
  have hmem : e.method.id ∈ (W.itableMethods t.interface).map CpMethod.id := by
    rw [← h.ids]
    exact mem_map_of_mem he
  obtain ⟨m, hm, hid⟩ := mem_map.mp hmem
  have hm' := mem_of_mem_filter hm
  refine ⟨t.interface.base, m, interfaceFlag_isInterface h.interface, ?_, hid⟩
  rw [interfaceFlag_dims h.interface] at hm'
  simpa [methodsOf] using hm'

theorem eq_of_mem_zip_self {l : List α} {a b : α} (h : (a, b) ∈ l.zip l) :
    a = b := by
  induction l with
  | nil => cases h
  | cons x l ih =>
    rw [zip_cons_cons, mem_cons, Prod.mk.injEq] at h
    rcases h with ⟨rfl, rfl⟩ | h
    · rfl
    · exact ih h

variable {Q S : ItableMethod → Prop} {src : Itable}

/-- Merging a source into a table keeps it good if it keeps the entries for `i` good. -/
theorem GoodItable.merge (hI : W.PlainIdentifiers)
    (hQ : ∀ d s, d.method.id = i → s.method.id = i → d = s ∨ Q d → S s →
      Q (W.mergeEntry c (poisoned.contains (identifier i)) d s))
    (hsrc : GoodItable W i S p src) (hp : p ∈ W.supers c)
    (ht : t = src ∨ GoodItable W i Q c t) (hint : t.interface = src.interface) : GoodItable W i Q c
      { t with methods := W.mergeMethods c poisoned scratchSize t.methods src.methods } := by
  have hids : t.methods.map (fun e => e.method.id) =
      (W.itableMethods src.interface).map CpMethod.id := by
    rcases ht with rfl | ht
    · exact hsrc.ids
    · rw [ht.ids, hint]
  have hdecl : ∀ e ∈ t.methods, e.method ∈ W.methods e.method.cls := by
    rcases ht with rfl | ht
    · exact hsrc.declared
    · exact ht.declared
  have hiid : ∀ e ∈ t.methods, W.InterfaceId e.method.id := by
    intro e he
    rcases ht with rfl | ht
    · exact hsrc.interfaceId he
    · exact ht.interfaceId he
  have hcut : Uncut scratchSize ((W.itableMethods src.interface).map CpMethod.id) := by
    rw [interfaceFlag_dims hsrc.interface]
    exact hI.merge (interfaceFlag_isInterface hsrc.interface)
  obtain ⟨hmap, hmem⟩ := @mergeMethods_spec W c _ poisoned _ _ _ hcut hids
    hsrc.ids fun d hd s hs hsd b =>
      (mergeEntry_method hI (hiid d hd) hsd (hdecl d hd) (hsrc.declared s hs)).1
  refine ⟨?_, ?_, ?_, ?_, ?_⟩
  · rw [hint]
    exact hsrc.interface
  · rw [hint]
    exact .head hp hsrc.supertype
  · rw [hint]
    exact hmap
  · intro e he
    obtain ⟨d, s, hz, hsd, rfl⟩ := hmem e he
    obtain ⟨hd, hs⟩ := of_mem_zip hz
    exact (mergeEntry_method hI (hiid d hd) hsd (hdecl d hd) (hsrc.declared s hs)).2
  · intro e he hei
    obtain ⟨d, s, hz, hsd, rfl⟩ := hmem e he
    obtain ⟨hd, hs⟩ := of_mem_zip hz
    have hdi : d.method.id = i := by
      rw [← hei]
      exact (mergeEntry_method hI (hiid d hd) hsd (hdecl d hd) (hsrc.declared s hs)).1.symm
    have hsi : s.method.id = i := hsd.trans hdi
    have hd' : d = s ∨ Q d := by
      rcases ht with rfl | ht
      · left
        exact eq_of_mem_zip_self hz
      · exact .inr (ht.entries d hd hdi)
    rw [hdi]
    exact hQ d s hdi hsi hd' (hsrc.entries s hs hsi)

theorem GoodItable.mono (h : GoodItable W i Q c t) (hQS : ∀ e, Q e → S e) : GoodItable W i S c t :=
  { h with entries := fun e he hei => hQS e (h.entries e he hei) }

variable {ts : List Itable} {t' : Itable}

theorem mem_mergeItable (h : t' ∈ W.mergeItable c poisoned src ts) :
    t' ∈ ts ∨ ∃ t, (t = src ∨ t ∈ ts) ∧ t.interface = src.interface ∧
      t' = { t with methods := W.mergeMethods c poisoned scratchSize t.methods src.methods } := by
  induction ts with
  | nil =>
    rw [mergeItable, mem_singleton] at h
    exact .inr ⟨src, .inl rfl, rfl, h⟩
  | cons t ts ih =>
    unfold mergeItable at h
    split at h
    · rename_i hint
      rcases mem_cons.mp h with rfl | h
      · exact .inr ⟨t, .inr mem_cons_self, hint, rfl⟩
      · exact .inl (mem_cons_of_mem _ h)
    · rcases mem_cons.mp h with rfl | h
      · exact .inl mem_cons_self
      · rcases ih h with h | ⟨u, hu, h⟩
        · exact .inl (mem_cons_of_mem _ h)
        · exact .inr ⟨u, hu.imp id (mem_cons_of_mem _), h⟩

theorem mergeItable_interface (c : ClassRef) (poisoned : List (List Char)) (src : Itable)
    (ts : List Itable) :
    (∃ t' ∈ W.mergeItable c poisoned src ts, t'.interface = src.interface) ∧
      ∀ t ∈ ts, ∃ t' ∈ W.mergeItable c poisoned src ts, t'.interface = t.interface := by
  induction ts with
  | nil => exact ⟨⟨_, mem_singleton.mpr rfl, rfl⟩, nofun⟩
  | cons t ts ih =>
    unfold mergeItable
    split
    · rename_i hint
      refine ⟨⟨_, mem_cons_self, hint⟩, fun u hu => ?_⟩
      rcases mem_cons.mp hu with rfl | hu
      · exact ⟨_, mem_cons_self, rfl⟩
      · exact ⟨u, mem_cons_of_mem _ hu, rfl⟩
    · obtain ⟨⟨u, hu, hui⟩, hall⟩ := ih
      refine ⟨⟨u, mem_cons_of_mem _ hu, hui⟩, fun v hv => ?_⟩
      rcases mem_cons.mp hv with rfl | hv
      · exact ⟨v, mem_cons_self, rfl⟩
      · obtain ⟨w, hw, hwv⟩ := hall v hv
        exact ⟨w, mem_cons_of_mem _ hw, hwv⟩

theorem foldl_mergeItable_interface (c : ClassRef) (poisoned : List (List Char))
    (srcs : List Itable) (ts : List Itable) :
    ∀ t, t ∈ srcs ∨ t ∈ ts → ∃ t' ∈ srcs.foldl (fun ts src => W.mergeItable c poisoned src ts) ts,
      t'.interface = t.interface := by
  induction srcs generalizing ts with
  | nil => exact fun t ht => ⟨t, ht.resolve_left (by simp), rfl⟩
  | cons src srcs ih =>
    intro t ht
    obtain ⟨⟨u, hu, hui⟩, hall⟩ := mergeItable_interface (W := W) c poisoned src ts
    rw [foldl_cons]
    rcases ht with ht | ht
    · rcases mem_cons.mp ht with rfl | ht
      · obtain ⟨v, hv, hvu⟩ := ih _ u (.inr hu)
        exact ⟨v, hv, hvu.trans hui⟩
      · exact ih _ t (.inl ht)
    · obtain ⟨v, hv, hvt⟩ := hall t ht
      obtain ⟨w, hw, hwv⟩ := ih _ v (.inr hv)
      exact ⟨w, hw, hwv.trans hvt⟩

variable {srcs : List Itable}

theorem foldl_mergeItable_good (hI : W.PlainIdentifiers)
    (hQ : ∀ d s, d.method.id = i → s.method.id = i → d = s ∨ Q d → S s →
      Q (W.mergeEntry c (poisoned.contains (identifier i)) d s))
    (hsrcs : ∀ src ∈ srcs, ∃ p ∈ W.supers c, GoodItable W i S p src)
    (hts : ∀ t ∈ ts, GoodItable W i Q c t) :
    ∀ t ∈ srcs.foldl (fun ts src => W.mergeItable c poisoned src ts) ts, GoodItable W i Q c t := by
  induction srcs generalizing ts with
  | nil => exact hts
  | cons src srcs ih =>
    obtain ⟨p, hp, hsrc⟩ := hsrcs src mem_cons_self
    apply ih (fun s hs => hsrcs s (mem_cons_of_mem _ hs))
    intro t' ht'
    rcases mem_mergeItable ht' with ht' | ⟨t, ht, hint, rfl⟩
    · exact hts t' ht'
    · exact hsrc.merge hI hQ hp (ht.imp id (hts t)) hint

theorem foldl_mergeItable_source
    (h : t' ∈ srcs.foldl (fun ts src => W.mergeItable c poisoned src ts) ts) :
    ∃ t, (t ∈ srcs ∨ t ∈ ts) ∧ t.interface = t'.interface := by
  induction srcs generalizing ts with
  | nil => exact ⟨t', .inr h, rfl⟩
  | cons src srcs ih =>
    obtain ⟨t, ht, hint⟩ := ih h
    rcases ht with ht | ht
    · exact ⟨t, .inl (mem_cons_of_mem _ ht), hint⟩
    · rcases mem_mergeItable ht with ht | ⟨u, hu, -, rfl⟩
      · exact ⟨t, .inr ht, hint⟩
      · rcases hu with rfl | hu
        · exact ⟨u, .inl mem_cons_self, hint⟩
        · exact ⟨u, .inr hu, hint⟩

variable {j : ClassRef}

/-- Linking gives a class the interfaces of its supertypes, and to an interface itself. -/
theorem mem_setUpFunctionTables_interface {T : ClassRef → FunctionTables} :
    j ∈ (W.setUpFunctionTables T r).itables.map Itable.interface ↔
      ((W.superOf r).isSome ∧ ∃ p ∈ W.supers r, j ∈ (T p).itables.map Itable.interface) ∨
        W.interfaceFlag r ∧ j = r := by
  rw [setUpFunctionTables_itables, map_append, mem_append]
  apply or_congr
  · by_cases hs : (W.superOf r).isSome
    · simp only [hs, if_true, true_and]
      constructor
      · intro h
        obtain ⟨t', ht', rfl⟩ := mem_map.mp h
        obtain ⟨t, ht, hint⟩ := foldl_mergeItable_source ht'
        obtain ⟨p, hp, htp⟩ := mem_flatMap.mp (ht.resolve_right (by simp))
        exact ⟨p, mem_supers.mpr hp, mem_map.mpr ⟨t, htp, hint⟩⟩
      · rintro ⟨p, hp, hj⟩
        obtain ⟨t, ht, rfl⟩ := mem_map.mp hj
        have hsrc : t ∈ (W.itableSources r).flatMap fun p => (T p).itables :=
          mem_flatMap.mpr ⟨p, mem_supers.mp hp, ht⟩
        obtain ⟨t', ht', hint⟩ := foldl_mergeItable_interface (W := W) r _ _ [] t (.inl hsrc)
        exact mem_map.mpr ⟨t', ht', hint⟩
    · simp [hs]
  · by_cases hi : W.interfaceFlag r <;> simp [hi]

/-- Every class but `java/lang/Object` has the itables of its supertypes. -/
theorem exists_itable (hW : W.WellFormed) (hsub : W.Supertype c j)
    (hj : W.interfaceFlag j) : ∃ t ∈ (W.tables c).itables, t.interface = j := by
  induction hsub using Relation.ReflTransGen.head_induction_on with
  | refl =>
    refine ⟨⟨j, (W.itableMethods j).map .make⟩, ?_, rfl⟩
    rw [tables_itables, if_pos hj]
    exact mem_append_right _ (mem_singleton.mpr rfl)
  | @head c p hp _ ih =>
    obtain ⟨t, ht, rfl⟩ := ih
    have hp' := mem_supers.mp hp
    have hsome : (W.superOf c).isSome = true := by
      cases hc : W.superOf c with
      | some q => rfl
      | none =>
        rcases mem_itableSources.mp hp' with h | h
        · rw [hW.root hc, hW.objectInterfaces] at h
          cases h
        · simp [hc] at h
    have hsrc : t ∈ (W.itableSources c).flatMap fun p => (W.tables p).itables :=
      mem_flatMap.mpr ⟨p, hp', ht⟩
    obtain ⟨t', ht', hint⟩ := foldl_mergeItable_interface (W := W) c _ _ [] t (.inl hsrc)
    refine ⟨t', ?_, hint⟩
    rw [tables_itables, if_pos hsome]
    exact mem_append_left _ ht'

/-! ### The entries of a linked class -/

section Entries

variable {i : MethodId} {c : ClassRef}

/-- An entry that comes from interfaces: the only maximally-specific method, or an ambiguity. -/
def Inherited (W : ClassWorld) (i : MethodId) (c : ClassRef) (e : ItableMethod) : Prop :=
  W.isInterface e.method.cls = true ∧
    ((∃ x, (∀ y, W.MaximallySpecific c i y ↔ y = x) ∧ e = .make x) ∨
      W.Ambiguous c i ∧ e.ambiguous = true ∧ e.invalid = true)

def EntryOk (W : ClassWorld) (i : MethodId) (c : ClassRef) (e : ItableMethod) : Prop :=
  match W.chainImplementation c i with
  | some r => e = .make r
  | none => Inherited W i c e

def Settled (W : ClassWorld) (i : MethodId) (c : ClassRef) : Prop :=
  ∀ t ∈ (W.tables c).itables, GoodItable W i (EntryOk W i c) c t

theorem Subclass.head {p : ClassRef} (hp : W.superOf c = some p) (h : W.Subclass p k) :
    W.Subclass c k :=
  Relation.ReflTransGen.head (r := fun c p => W.superOf c = some p) hp h

theorem subclass_object (hW : W.WellFormed) (c : ClassRef) : W.Subclass c ⟨W.object, 0⟩ := by
  induction c using supers_induction (W := W) with
  | _ c ih =>
    cases hp : W.superOf c with
    | none => rw [hW.root hp]; exact .refl
    | some p => exact .head hp (ih p (superOf_mem_supers hp))

variable {e : ItableMethod} {p : ClassRef}

/-- A class without an implementation of its own gets entries of interfaces only. -/
theorem EntryOk.inherited (hW : W.WellFormed)
    (h : EntryOk W i p e) (hc : W.chainImplementation c i = none) (hp : p ∈ W.supers c) :
    Inherited W i p e := by
  unfold EntryOk at h
  cases hr : W.chainImplementation p i with
  | none => simpa only [hr] using h
  | some r =>
    rw [hr] at h
    obtain ⟨k, hk, hmem, hid, hpub, hst, hpr⟩ := chainImplementation_spec hr
    have hnone := chainImplementation_eq_none.mp hc
    have hnot : ¬ W.Subclass c k := by
      intro hck
      exact absurd (hnone k hck r hmem hid hpub hst) (by simp [hpr])
    rcases mem_itableSources.mp (mem_supers.mp hp) with hint | hsup
    · have hi := hW.interfaces_ hint
      obtain ⟨q, d⟩ := p
      obtain rfl : d = 0 := W.supers_dims hp
      have hkp : k = ⟨q, 0⟩ := by
        rcases Relation.ReflTransGen.cases_head hk with h | ⟨o, ho, h⟩
        · exact h.symm
        · cases (hW.interfaceSuper hi).symm.trans ho
          exact absurd ((subclass_object hW c).trans h) hnot
      subst hkp
      have hcls := methodsOf_cls hmem
      simp only [ClassRef.mk.injEq, and_true] at hcls
      subst hcls hid h
      refine ⟨hi, .inl ⟨r, fun y => ?_, rfl⟩⟩
      exact maximallySpecific_declared hW (mem_methods_of_mem_methodsOf hmem) hi hst hpr
    · exact absurd (Subclass.head hsup hk) hnot

theorem foldl_visit_filter (l : List ItableMethod) (st : ConflictScan) :
    l.foldl (ConflictScan.visit W) st =
      (l.filter fun e => W.isInterface e.method.cls).foldl (ConflictScan.visit W) st := by
  induction l generalizing st with
  | nil => rfl
  | cons e l ih =>
    rw [foldl_cons, ih]
    by_cases he : W.isInterface e.method.cls = true
    · simp [he]
    · have hskip : ConflictScan.visit W st e = st := by simp [ConflictScan.visit, he]
      simp [he, hskip]

variable (hW : W.WellFormed) (hI : W.PlainIdentifiers) (hD : W.PlainDeclarations i)
  (hs : ∀ p ∈ W.supers c, Settled W i p)

theorem mem_scanned : e ∈ W.scanned c ↔ W.isInterface e.method.cls = true ∧
      ∃ p ∈ W.supers c, ∃ t ∈ (W.tables p).itables, e ∈ t.methods := by
  simp only [scanned, mem_filter, mem_flatMap]
  constructor
  · rintro ⟨⟨t, ⟨p, hp, ht⟩, he⟩, hint⟩
    exact ⟨hint, p, mem_supers.mpr hp, t, ht, he⟩
  · rintro ⟨hint, p, hp, t, ht, he⟩
    exact ⟨⟨t, ⟨p, mem_supers.mp hp, ht⟩, he⟩, hint⟩

/-- Whether the entries for `i` are poisoned while `c` is linked. -/
def poisonedIn (W : ClassWorld) (c : ClassRef) (i : MethodId) : Bool :=
  let entries := ((W.itableSources c).flatMap fun p => (W.tables p).itables).flatMap Itable.methods
  (entries.foldl (ConflictScan.visit W) .start).ambiguous.contains (identifier i)

include hI hs in
theorem poisonedIn_iff (hi : W.InterfaceId i) :
    poisonedIn W c i = true ↔ Conflict (W.scanned c) i := by
  have hcolon : ∀ e ∈ W.scanned c, ':' ∉ e.method.name.toList := by
    intro e he
    obtain ⟨hint, p, hp, t, ht, het⟩ := mem_scanned.mp he
    exact hI.colon hint ((hs p hp t ht).declared e het)
  have hi' : ':' ∉ i.name.toList := by
    obtain ⟨j, m, hj, hm, rfl⟩ := hi
    exact hI.colon hj hm
  unfold poisonedIn
  dsimp only
  rw [contains_iff_mem, foldl_visit_filter]
  apply mem_ambiguous_iff _ (hI.scan c) hi' hcolon
  intro e he
  exact (mem_scanned.mp he).1

theorem scanned_inherited (hc : W.chainImplementation c i = none)
    (hW : W.WellFormed) (hs : ∀ p ∈ W.supers c, Settled W i p)
    (he : e ∈ W.scanned c) (hei : e.method.id = i) : ∃ p ∈ W.supers c, Inherited W i p e := by
  obtain ⟨-, p, hp, t, ht, het⟩ := mem_scanned.mp he
  exact ⟨p, hp, ((hs p hp t ht).entries e het hei).inherited hW hc hp⟩

include hW hD hs in
theorem exists_scanned (hc : W.chainImplementation c i = none)
    (hp : p ∈ W.supers c) {y : CpMethod} (hy : W.InterfaceMethod p i y) :
    ∃ e ∈ W.scanned c, e.method.id = i ∧ Inherited W i p e := by
  have hv := hy.isVirtual hD
  have hflag : W.interfaceFlag ⟨y.cls, 0⟩ = true := by simp [interfaceFlag, hy.interface]
  obtain ⟨t, ht, hint⟩ := exists_itable hW hy.supertype hflag
  have hgood := hs p hp t ht
  have hmem : i ∈ t.methods.map fun e => e.method.id := by
    rw [hgood.ids, hint, ← hy.id]
    apply mem_map_of_mem
    exact mem_filter.mpr ⟨by simpa [methodsOf] using hy.declared, hv⟩
  obtain ⟨e, he, hei⟩ := mem_map.mp hmem
  have hinh := (hgood.entries e he hei).inherited hW hc hp
  exact ⟨e, mem_scanned.mpr ⟨hinh.1, p, hp, t, ht, he⟩, hei, hinh⟩

def Agreed (W : ClassWorld) (i : MethodId) (c : ClassRef) (x : CpMethod) : Prop :=
  ∀ p ∈ W.supers c, ∀ y, W.MaximallySpecific p i y → y = x

theorem Inherited.eq_make {x : CpMethod}
    (h : Inherited W i p e) (hx : ∀ y, W.MaximallySpecific p i y → y = x) :
    e = .make x ∧ W.MaximallySpecific p i x := by
  rcases h.2 with ⟨z, hz, rfl⟩ | ⟨⟨y, z, hyz, hy, hz, -⟩, -⟩
  · have hzp := (hz z).mpr rfl
    obtain rfl := hx z hzp
    exact ⟨rfl, hzp⟩
  · exact absurd ((hx y hy).trans (hx z hz).symm) hyz

include hW hD hs in
theorem conflict_iff (hc : W.chainImplementation c i = none) :
    Conflict (W.scanned c) i ↔ ¬ ∃ x, Agreed W i c x := by
  constructor
  · rintro hconf ⟨x, hx⟩
    have hmake : ∀ e ∈ W.scanned c, e.method.id = i → e = .make x := by
      intro e he hei
      obtain ⟨p, hp, hinh⟩ := scanned_inherited hc hW hs he hei
      exact (hinh.eq_make (hx p hp)).1
    rcases hconf with ⟨e, he, hei, hamb⟩ | ⟨e, he, e', he', hei, hei', hne⟩
    · simp [hmake e he hei, ItableMethod.make] at hamb
    · rw [hmake e he hei, hmake e' he' hei'] at hne
      exact hne rfl
  · intro h
    simp only [Agreed] at h
    push Not at h
    obtain ⟨p, hp, y, hy, -⟩ := h ⟨0, 0, "", "", false, false, false, false, false, false⟩
    obtain ⟨q, hq, z, hz, hzy⟩ := h y
    obtain ⟨e, he, hei, hinh⟩ := exists_scanned hW hD hs hc hp hy.1
    obtain ⟨e', he', hei', hinh'⟩ := exists_scanned hW hD hs hc hq hz.1
    rcases hinh.2 with ⟨x, hx, rfl⟩ | ⟨-, hamb, -⟩
    · rcases hinh'.2 with ⟨x', hx', rfl⟩ | ⟨-, hamb, -⟩
      · obtain rfl := (hx y).mp hy
        obtain rfl := (hx' z).mp hz
        exact .inr ⟨_, he, _, he', hei, hei', hzy.symm⟩
      · exact .inl ⟨e', he', hei', hamb⟩
    · exact .inl ⟨e, he, hei, hamb⟩

theorem markAmbiguous_interface
    (hd : d = s ∨ W.isInterface d.method.cls = true) (hs : W.isInterface s.method.cls = true) :
    W.isInterface (if d.method.isAbstract = true ∨ d = s then s else d).method.cls = true := by
  split
  · exact hs
  · rename_i hn
    rcases hd with rfl | hd
    · exact absurd (.inr rfl) hn
    · exact hd

include hW hI hD hs in
/-- Merging keeps the entries right where the supertypes agree or the class is ambiguous. -/
theorem EntryOk.merge (hi : W.InterfaceId i)
    (hu : W.chainImplementation c i = none → (∃ x, Agreed W i c x) ∨ W.Ambiguous c i)
    (hdi : d.method.id = i) (hd : d = s ∨ EntryOk W i c d)
    (hsrc : ∃ p ∈ W.supers c, EntryOk W i p s) :
    EntryOk W i c (W.mergeEntry c (poisonedIn W c i) d s) := by
  rw [mergeEntry_eq hI hi hD hdi]
  unfold EntryOk at hd ⊢
  cases hc : W.chainImplementation c i with
  | some r => rfl
  | none =>
    simp only [hc] at hd ⊢
    obtain ⟨p, hp, hsp⟩ := hsrc
    have hsinh := hsp.inherited hW hc hp
    rcases hu hc with ⟨x, hx⟩ | hamb
    · have hpo : poisonedIn W c i = false := by
        rw [← Bool.not_eq_true, poisonedIn_iff hI hs hi, conflict_iff hW hD hs hc, not_not]
        exact ⟨x, hx⟩
      obtain ⟨rfl, hxp⟩ := hsinh.eq_make (hx p hp)
      have hms : ∀ y, W.MaximallySpecific c i y → y = x := fun y hy =>
        maximallySpecific_of_supers hW hD hI hc hx hy
      have hdx : d = .make x := by
        rcases hd with hd | hd
        · exact hd
        · exact (hd.eq_make hms).1
      obtain ⟨z, hz⟩ := (hxp.1.of_super hp).exists_maximallySpecific
      have hxc : W.MaximallySpecific c i x := hms z hz ▸ hz
      simp only [hpo, hdx, or_true, if_true]
      refine ⟨hsinh.1, .inl ⟨x, fun y => ⟨hms y, ?_⟩, rfl⟩⟩
      rintro rfl
      exact hxc
    · have hpo : poisonedIn W c i = true := by
        rw [poisonedIn_iff hI hs hi, conflict_iff hW hD hs hc]
        rintro ⟨x, hx⟩
        obtain ⟨y, z, hyz, hy, hz, -⟩ := hamb
        have hyx := maximallySpecific_of_supers hW hD hI hc hx hy
        have hzx := maximallySpecific_of_supers hW hD hI hc hx hz
        exact hyz (hyx.trans hzx.symm)
      simp only [hpo, if_true]
      refine ⟨?_, .inr ⟨hamb, rfl, rfl⟩⟩
      exact markAmbiguous_interface (hd.imp id fun h => h.1) hsinh.1

variable {S : ItableMethod → Prop}

theorem GoodItable.of_not_interfaceId {t : Itable}
    (h : GoodItable W i Q c t) (hi : ¬ W.InterfaceId i) : GoodItable W i S c t :=
  { h with entries := fun _ he hei => absurd (hei ▸ h.interfaceId he) hi }

/-- The itables of a class: merged from its supertypes, and its own if it is an interface. -/
theorem itables_good (hI : W.PlainIdentifiers)
    (hsrcs : ∀ p ∈ W.supers c, ∀ t ∈ (W.tables p).itables, GoodItable W i S p t)
    (hQ : W.InterfaceId i → ∀ d s, d.method.id = i → s.method.id = i → d = s ∨ Q d → S s →
      Q (W.mergeEntry c (poisonedIn W c i) d s))
    (hown : ∀ m, c = ⟨m.cls, 0⟩ → m ∈ W.methods m.cls → W.isInterface m.cls → m.id = i →
      Q (.make m)) :
    ∀ t ∈ (W.tables c).itables, GoodItable W i Q c t := by
  have hall : ∀ src ∈ (W.itableSources c).flatMap (fun p => (W.tables p).itables),
      ∃ p ∈ W.supers c, GoodItable W i S p src := by
    intro src hsrc
    obtain ⟨p, hp, ht⟩ := mem_flatMap.mp hsrc
    exact ⟨p, mem_supers.mpr hp, hsrcs p (mem_supers.mpr hp) src ht⟩
  intro t ht
  rw [tables_itables, mem_append] at ht
  rcases ht with ht | ht
  · split at ht
    · by_cases hi : W.InterfaceId i
      · exact foldl_mergeItable_good hI (hQ hi) hall (by simp) t ht
      · have h := foldl_mergeItable_good (Q := fun _ => True) hI (fun _ _ _ _ _ _ => trivial) hall
          (by simp) t ht
        exact h.of_not_interfaceId hi
    · cases ht
  · split at ht
    · rename_i hflag
      rw [mem_singleton] at ht
      subst ht
      refine ⟨hflag, .refl, by simp [ItableMethod.make, Function.comp_def], ?_, ?_⟩
      · intro e he
        obtain ⟨m, hm, rfl⟩ := mem_map.mp he
        exact mem_methods_of_mem_methodsOf (mem_of_mem_filter hm)
      · intro e he hei
        obtain ⟨m, hm, rfl⟩ := mem_map.mp he
        have hm := mem_of_mem_filter hm
        have hcls := methodsOf_cls hm
        have hint := interfaceFlag_isInterface hflag
        rw [hcls] at hint
        exact hown m hcls (mem_methods_of_mem_methodsOf hm) hint hei
    · cases ht

include hW hI hD hs in
theorem Settled.step
    (hu : W.chainImplementation c i = none → (∃ x, Agreed W i c x) ∨ W.Ambiguous c i) :
    Settled W i c := by
  apply itables_good hI (S := fun s => ∃ p ∈ W.supers c, EntryOk W i p s)
  · intro p hp t ht
    exact (hs p hp t ht).mono fun e he => ⟨p, hp, he⟩
  · intro hi d s hdi _ hd hsrc
    exact EntryOk.merge hW hI hD hs hi hu hdi hd hsrc
  · intro m hcm hm hint hid
    unfold EntryOk
    rw [hcm, chainImplementation_declared hW hD hI hm hint hid]

include hW hI hD hs in
theorem ambiguous_of_not_agreed (hc : W.chainImplementation c i = none)
    (hno : ¬ ∃ x, Agreed W i c x) :
    ∀ t ∈ (W.tables c).itables, GoodItable W i (fun e => e.ambiguous = true) c t := by
  apply itables_good hI (S := fun _ => True)
  · intro p hp t ht
    exact (hs p hp t ht).mono fun _ _ => trivial
  · intro hi d s hdi _ _ _
    have hpo := (poisonedIn_iff hI hs hi).mpr ((conflict_iff hW hD hs hc).mpr hno)
    rw [mergeEntry_eq hI hi hD hdi, hc, hpo]
    rfl
  · intro m hcm hm hint hid
    rw [hcm, chainImplementation_declared hW hD hI hm hint hid] at hc
    cases hc

/-- `itable_lookup` finds an entry for every method of an implemented interface. -/
theorem itableEntry_spec (hW : W.WellFormed)
    (hgood : ∀ t ∈ (W.tables c).itables, GoodItable W i Q c t)
    (hm : m ∈ W.methods m.cls) (hint : W.isInterface m.cls) (hv : m.isVirtual) (hid : m.id = i)
    (hsub : W.Supertype c ⟨m.cls, 0⟩) :
    ∃ e, W.itableEntry c ⟨m.cls, 0⟩ (W.itableIndex m) = some e ∧ Q e := by
  have hflag : W.interfaceFlag ⟨m.cls, 0⟩ = true := by simp [interfaceFlag, hint]
  obtain ⟨t₀, ht₀, hint₀⟩ := exists_itable hW hsub hflag
  cases hf : (W.tables c).itables.find? fun t => t.interface = ⟨m.cls, 0⟩ with
  | none => simpa [hint₀] using find?_eq_none.mp hf t₀ ht₀
  | some t =>
    have ht := hgood t (mem_of_find?_eq_some hf)
    have hti : t.interface = ⟨m.cls, 0⟩ := by simpa using find?_some hf
    have hmem : m ∈ W.itableMethods ⟨m.cls, 0⟩ :=
      mem_filter.mpr ⟨by simpa [methodsOf] using hm, hv⟩
    have hidx : (W.itableMethods ⟨m.cls, 0⟩)[W.itableIndex m]? = some m := by
      unfold itableIndex
      rw [tables_itableIndex hflag]
      have hlt : (W.itableMethods ⟨m.cls, 0⟩).findIdx (fun x => x.index = m.index) <
          (W.itableMethods ⟨m.cls, 0⟩).length :=
        findIdx_lt_length_of_exists ⟨m, hmem, by simp⟩
      rw [getElem?_eq_getElem hlt]
      have hx := findIdx_getElem (w := hlt)
      congr 1
      apply eq_of_index_eq (mem_of_mem_filter (getElem_mem hlt)) (mem_of_mem_filter hmem)
      simpa using hx
    have hids : (t.methods.map fun e => e.method.id)[W.itableIndex m]? = some i := by
      rw [ht.ids, hti, getElem?_map, hidx, ← hid]
      rfl
    rw [getElem?_map] at hids
    obtain ⟨e, he, hei⟩ := Option.map_eq_some_iff.mp hids
    refine ⟨e, by rw [itableEntry, hf]; exact he, ?_⟩
    exact ht.entries e (mem_of_getElem? he) hei

theorem EntryOk.designates (h : EntryOk W i c e) : W.Designates c i e := by
  unfold EntryOk at h
  unfold Designates
  cases hc : W.chainImplementation c i with
  | some r => simpa only [hc] using h
  | none =>
    simp only [hc] at h
    rcases h.2 with ⟨x, hx, rfl⟩ | ⟨hamb, ha, hinv⟩
    · refine ⟨?_, ?_, ?_⟩
      · intro y hy _ _
        rw [(hx y).mp hy]
      · rintro ⟨y, z, hyz, hy, hz, -⟩
        exact absurd (((hx y).mp hy).trans ((hx z).mp hz).symm) hyz
      · intro hall
        exact ⟨hall x ((hx x).mpr rfl), rfl⟩
    · obtain ⟨y, z, hyz, hy, hz, hya, hza⟩ := hamb
      refine ⟨?_, fun _ => ha, ?_⟩
      · intro x _ _ huniq
        exact absurd ((huniq y hy hya).trans (huniq z hz hza).symm) hyz
      · intro hall
        simp [hall y hy] at hya

theorem ambiguous_of_designates (hc : W.chainImplementation c i = none)
    (h : W.Designates c i e) (ha : e.ambiguous = true) : W.Ambiguous c i := by
  simp only [Designates, hc] at h
  obtain ⟨honly, -, hnone⟩ := h
  by_contra hamb
  by_cases hex : ∃ x, W.MaximallySpecific c i x ∧ x.isAbstract = false
  · obtain ⟨x, hx, hxa⟩ := hex
    have he := honly x hx hxa fun y hy hya => by
      by_contra hyx
      exact hamb ⟨y, x, hyx, hy, hx, hya, hxa⟩
    simp [he, ItableMethod.make] at ha
  · push Not at hex
    have hall : ∀ x, W.MaximallySpecific c i x → x.isAbstract = true := by
      intro x hx
      simpa using hex x hx
    simp [(hnone hall).2] at ha

end Entries

end ClassWorld

/-- `interface I { void m(); }`, `interface J extends I { default void m() {} }` and a class that
implements `J`, or both; the classes `0`, `1` and `2` are those that every array extends. -/
def interfaceMethod (cls : ℕ) (isAbstract : Bool) : CpMethod :=
  ⟨cls, 0, "m", "()V", true, false, false, false, isAbstract, false⟩

def implementor (both : Bool) : ClassWorld where
  isPrimitive _ := false
  superClass
    | 0 => none
    | _ => some 0
  interfaces
    | 4 => [3]
    | 5 => if both then [3, 4] else [4]
    | _ => []
  hasClinit _ := false
  verifies _ := true
  object := 0
  cloneable := 1
  serializable := 2
  super_lt := by
    intro c p h
    split at h
    · cases h
    · rename_i hc
      cases h
      exact Nat.pos_of_ne_zero hc
  interfaces_lt := by
    intro c p h
    split at h <;> [skip; split at h; skip] <;> simp_all <;> omega
  className
    | 0 => "java/lang/Object"
    | 1 => "java/lang/Cloneable"
    | 2 => "java/io/Serializable"
    | 3 => "I"
    | 4 => "J"
    | _ => "C"
  loader _ := 0
  isInterface
    | 1 => true
    | 2 => true
    | 3 => true
    | 4 => true
    | _ => false
  methods
    | 3 => [interfaceMethod 3 true]
    | 4 => [interfaceMethod 4 false]
    | _ => []
  my_class := by
    intro c m h
    split at h <;> simp_all [interfaceMethod]
  my_index := by
    intro c i m h
    split at h <;> rcases i with _ | i <;> simp_all [interfaceMethod]
    all_goals rw [← h]

theorem implementor_methods {b : Bool} {c : ℕ} {m : CpMethod} (h : m ∈ (implementor b).methods c) :
    c = 3 ∧ m = interfaceMethod 3 true ∨ c = 4 ∧ m = interfaceMethod 4 false := by
  simp only [implementor] at h
  split at h
  · exact .inl ⟨rfl, mem_singleton.mp h⟩
  · exact .inr ⟨rfl, mem_singleton.mp h⟩
  · cases h

theorem implementor_wellFormed : (implementor false).WellFormed where
  root := by
    rintro ⟨c, d⟩ h
    unfold ClassWorld.superOf at h
    split at h
    · rename_i h0
      obtain rfl : d = 0 := h0
      cases c with
      | zero => rfl
      | succ c => simp [implementor] at h
    · cases h
  interfaceSuper := by
    intro c h
    rcases c with _ | _ | _ | _ | _ | c <;> first | rfl | cases h
  objectInterfaces := rfl
  interfaces_ := by
    rintro ⟨c, d⟩ p h
    unfold ClassWorld.interfacesOf at h
    split at h
    · obtain ⟨q, hq, rfl⟩ := mem_map.mp h
      rcases c with _ | _ | _ | _ | _ | _ | c <;>
        first | cases hq; done | obtain rfl := mem_singleton.mp hq; rfl
    · simp only [mem_cons, not_mem_nil, or_false] at h
      rcases h with rfl | rfl <;> rfl
  unique := by
    intro c x y hx hy _
    rcases implementor_methods hx with ⟨rfl, rfl⟩ | ⟨rfl, rfl⟩ <;>
      rcases implementor_methods hy with ⟨hc, rfl⟩ | ⟨hc, rfl⟩ <;> first | rfl | omega

theorem implementor_identifiers : (implementor false).PlainIdentifiers where
  scan := by
    rintro ⟨c, d⟩
    cases d with
    | succ d => exact (by decide : ClassWorld.Uncut scratchSize [])
    | zero =>
      match c with
      | 0 => decide
      | 1 => decide
      | 2 => decide
      | 3 => decide
      | 4 => decide
      | 5 => decide
      | c + 6 => exact (by decide : ClassWorld.Uncut scratchSize [])
  merge := by
    intro c h
    match c, h with
    | 1, _ => decide
    | 2, _ => decide
    | 3, _ => decide
    | 4, _ => decide
  colon := by
    intro c m _ hm
    rcases implementor_methods hm with ⟨-, rfl⟩ | ⟨-, rfl⟩ <;> decide
  polymorphic := by
    intro c j x m hx hp
    rcases implementor_methods hx with ⟨-, rfl⟩ | ⟨-, rfl⟩ <;> cases hp

theorem implementor_declarations :
    (implementor false).PlainDeclarations ⟨"m", "()V"⟩ where
  initializer := by decide
  nearest := by
    intro c r h
    rw [ClassWorld.methodLookup_eq] at h
    obtain ⟨k, -, hk⟩ := exists_of_findSome?_eq_some h
    have hr := ClassWorld.mem_methods_of_mem_methodsOf (mem_of_find?_eq_some hk)
    rcases implementor_methods hr with ⟨-, rfl⟩ | ⟨-, rfl⟩ <;> exact .inl ⟨rfl, rfl, rfl⟩
  interface := by
    intro c m _ hm _
    rcases implementor_methods hm with ⟨-, rfl⟩ | ⟨-, rfl⟩ <;> rfl

/-- No class of the hierarchy but `J` redeclares the method of `I`. -/
theorem implementor_unconflicted :
    (implementor false).Unconflicted ⟨"m", "()V"⟩ := by
  intro c hc
  refine .inl ⟨interfaceMethod 4 false, fun p hp y hy => ?_⟩
  rcases implementor_methods hy.1.declared with ⟨hcls, rfl⟩ | ⟨-, rfl⟩
  · exfalso
    have hle : 3 ≤ p.base := (hy.1.supertype.base_le ((implementor false).supers_dims hp)).1
    have hcases : c = ⟨4, 0⟩ ∨ p = ⟨4, 0⟩ := by
      obtain ⟨n, d⟩ := c
      cases d with
      | succ d =>
        have hp' : p ∈ [⟨0, 0⟩, ⟨1, 0⟩, ⟨2, 0⟩] := hp
        simp only [mem_cons, not_mem_nil, or_false] at hp'
        rcases hp' with rfl | rfl | rfl <;> simp at hle
      | zero =>
        rcases n with _ | _ | _ | _ | _ | _ | n
        · cases hp
        · obtain rfl := mem_singleton.mp hp; simp at hle
        · obtain rfl := mem_singleton.mp hp; simp at hle
        · obtain rfl := mem_singleton.mp hp; simp at hle
        · exact .inl rfl
        · have hp' : p ∈ [⟨0, 0⟩, ⟨4, 0⟩] := hp
          simp only [mem_cons, not_mem_nil, or_false] at hp'
          rcases hp' with rfl | rfl
          · simp at hle
          · exact .inr rfl
        · obtain rfl := mem_singleton.mp hp; simp at hle
    rcases hcases with rfl | rfl
    · exact absurd hc (by decide)
    · have hJ : (implementor false).InterfaceMethod ⟨4, 0⟩ ⟨"m", "()V"⟩ (interfaceMethod 4 false) :=
        ⟨by decide, rfl, .refl, rfl, rfl, rfl⟩
      exact absurd (hy.2 _ hJ (.single (by decide))) (by decide)
  · rfl

end TraceJvm
